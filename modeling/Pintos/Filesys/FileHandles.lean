/-
`filesys/file.c`: handles, and who keeps a file from being written.

`file_deny_write` sets a flag in the handle and counts in the inode. `deny_write_cnt` is
the number of handles with the flag, and each handle has a share of `open_cnt`, so the
assertions of `inode_deny_write` and `inode_allow_write` hold. `HeldWf` is that account:
`p i` is the number of shares of inode `i` that are in nobody's handle yet, which is where
`file_reopen` is between `inode_reopen` and `file_open`.
-/
import Pintos.Filesys.References
import Pintos.Lib.Slots

set_option autoImplicit false

namespace Pintos

/-! ## The functions -/

/-- `free` of a `struct file`. -/
@[simps] def filesys.free_file (s : filesys) (f : ℕ) : filesys :=
  { s with file := Function.update s.file f none }

/-- `file_deny_write`, with `inode_deny_write` and its assertion. -/
def file_deny_write (s : filesys) (f : ℕ) : Outcome filesys := do
  let fl ← s.get_file f
  if fl.deny_write then
    return s
  else
    let ino ← s.get_inode fl.inode
    Outcome.assert (ino.deny_write_cnt + 1 ≤ ino.open_cnt)
    return (s.set_file f { fl with deny_write := true }).set_inode fl.inode
      { ino with deny_write_cnt := ino.deny_write_cnt + 1 }

/-- `file_duplicate`. -/
def file_duplicate (s : filesys) (f : ℕ) : Outcome (ℕ × filesys) := do
  let fl ← s.get_file f
  let (nfile, s) ← file_reopen s f
  let nfl ← s.get_file nfile
  let s := s.set_file nfile { nfl with pos := fl.pos }
  let s ← if fl.deny_write then file_deny_write s nfile else .ok s
  return (nfile, s)

/-- `file_close` of a file that is not null. -/
def file_close (s : filesys) (f : ℕ) : Outcome filesys := do
  let s ← file_allow_write s f
  let fl ← s.get_file f
  let s ← inode_close s fl.inode
  return s.free_file f

/-- The six calls; `file_open` takes over what `inode_open` returns. -/
inductive file_call
  | open (sector : ℕ)
  | reopen (f : ℕ)
  | duplicate (f : ℕ)
  | deny_write (f : ℕ)
  | allow_write (f : ℕ)
  | close (f : ℕ)
  deriving DecidableEq, Repr

/-- One call. -/
def file_step (s : filesys) : file_call → Outcome filesys
  | .open sector => do
      let (i, s) ← inode_open s sector
      return (file_open s i).2
  | .reopen f => do
      let (_, s) ← file_reopen s f
      return s
  | .duplicate f => do
      let (_, s) ← file_duplicate s f
      return s
  | .deny_write f => file_deny_write s f
  | .allow_write f => file_allow_write s f
  | .close f => file_close s f

/-- A sequence of calls. -/
def file_run : List file_call → filesys → Outcome filesys
  | [], s => .ok s
  | c :: cs, s => do
      let s ← file_step s c
      file_run cs s

/-! ## Closing -/

section CloseFile

variable {s s' : filesys} {f : ℕ} {fl : file}

/-- What happens to other files: nothing. -/
structure FileGone (s : filesys) (f : ℕ) (s' : filesys) : Prop where
  wf : s'.OpenWf
  next_file : s'.next_file = s.next_file
  others : ∀ g, g ≠ f → s'.file g = s.file g
  gone : s'.file f = none

theorem file_allow_write_cases (hf : s.file f = some fl) (h : file_allow_write s f = .ok s') :
    s' = s ∨ ∃ ino, s.inode fl.inode = some ino
      ∧ s' = (s.set_file f { fl with deny_write := false }).set_inode fl.inode
        { ino with deny_write_cnt := ino.deny_write_cnt - 1 } := by
  obtain ⟨fl', hf', h⟩ := Outcome.bind_eq_ok.mp h
  rw [filesys.get_file_eq_ok, hf] at hf'
  obtain rfl := Option.some.inj hf'
  split at h
  · right
    obtain ⟨ino, hino, h⟩ := Outcome.bind_eq_ok.mp h
    obtain ⟨-, -, h⟩ := Outcome.bind_eq_ok.mp h
    obtain ⟨-, -, h⟩ := Outcome.bind_eq_ok.mp h
    exact ⟨ino, filesys.get_inode_eq_ok.mp hino, (Outcome.ok.inj h).symm⟩
  · left
    exact (Outcome.ok.inj h).symm

theorem inode_close_files {i : ℕ} (h : inode_close s i = .ok s') :
    s'.file = s.file ∧ s'.next_file = s.next_file := by
  obtain ⟨ino, -, hcases⟩ := inode_close_cases h
  rcases hcases with ⟨-, rfl⟩ | ⟨-, -, fs, -, rfl⟩ | ⟨-, -, rfl⟩
  · exact ⟨rfl, rfl⟩
  · exact ⟨rfl, rfl⟩
  · exact ⟨rfl, rfl⟩

/-- `file_close` frees the file, and touches no other. -/
theorem file_close_gone (hwf : s.OpenWf) (hf : s.file f = some fl) (h : file_close s f = .ok s') :
    FileGone s f s' := by
  obtain ⟨s₁, hallow, h⟩ := Outcome.bind_eq_ok.mp h
  obtain ⟨fl₁, hf₁, h⟩ := Outcome.bind_eq_ok.mp h
  obtain ⟨s₂, hclose, h⟩ := Outcome.bind_eq_ok.mp h
  obtain rfl := Outcome.ok.inj h
  have hs₁ : s₁.OpenWf ∧ s₁.next_file = s.next_file ∧ ∀ g, g ≠ f → s₁.file g = s.file g := by
    rcases file_allow_write_cases hf hallow with rfl | ⟨ino, hino, rfl⟩
    · exact ⟨hwf, rfl, fun _ _ => rfl⟩
    · have hset : (s.set_file f { fl with deny_write := false }).OpenWf := hwf.congr rfl rfl rfl
      have hpos : 1 ≤ ino.open_cnt := hwf.pos hino
      refine ⟨hset.set_inode hino rfl hpos, rfl, fun g hg => ?_⟩
      exact Function.update_of_ne hg _ _
  obtain ⟨hwf₁, hnext₁, hother₁⟩ := hs₁
  obtain ⟨hfile₂, hnext₂⟩ := inode_close_files hclose
  obtain ⟨ino₁, hino₁, -⟩ := inode_close_cases hclose
  have hwf₂ := (filesys.refs_close hwf₁ hino₁ hclose).1
  refine ⟨hwf₂.congr rfl rfl rfl, hnext₂.trans hnext₁, fun g hg => ?_, Function.update_self _ _ _⟩
  rw [filesys.free_file_file, Function.update_of_ne hg, hfile₂]
  exact hother₁ g hg

end CloseFile

/-! ## The account -/

namespace filesys

/-- What the account knows of a handle: its inode and its flag. -/
def handle (s : filesys) (f : ℕ) : Option (ℕ × Bool) :=
  (s.file f).map fun fl => (fl.inode, fl.deny_write)

/-- The handles on inode `i` whose flag is `b`. -/
def handles (s : filesys) (i : ℕ) (b : Bool) : ℕ := occurrences s.next_file s.handle (some (i, b))

/-- The account, with `p i` shares of inode `i` outside of handles. -/
structure HeldWf (s : filesys) (p : ℕ → ℕ) : Prop where
  open_wf : s.OpenWf
  fresh : ∀ {f fl}, s.file f = some fl → f < s.next_file
  live : ∀ {f fl}, s.file f = some fl → ∃ ino, s.inode fl.inode = some ino
  deny : ∀ {i ino}, s.inode i = some ino → ino.deny_write_cnt = s.handles i true
  shares : ∀ {i ino}, s.inode i = some ino →
    ((s.handles i true + s.handles i false + p i : ℕ) : ℤ) ≤ ino.open_cnt

variable {s s' : filesys} {p : ℕ → ℕ} {i f : ℕ} {ino : Pintos.inode} {fl : Pintos.file}

theorem handle_of_file (hf : s.file f = some fl) : s.handle f = some (fl.inode, fl.deny_write) := by
  unfold handle
  rw [hf]
  rfl

theorem handle_set_file (s : filesys) (f : ℕ) (fl : Pintos.file) :
    (s.set_file f fl).handle = Function.update s.handle f (some (fl.inode, fl.deny_write)) := by
  funext g
  unfold handle
  by_cases hg : g = f
  · rw [hg, set_file_file, Function.update_self, Function.update_self]
    rfl
  · rw [set_file_file, Function.update_of_ne hg, Function.update_of_ne hg]

/-- Storing a handle where there is one. -/
theorem handles_set_file (hlt : f < s.next_file) (hf : s.file f = some fl)
    (fl' : Pintos.file) (j : ℕ) (b : Bool) :
    (s.set_file f fl').handles j b + (if (fl.inode, fl.deny_write) = (j, b) then 1 else 0)
      = s.handles j b + if (fl'.inode, fl'.deny_write) = (j, b) then 1 else 0 := by
  have hupd := occurrences_update hlt s.handle (some (j, b)) (some (fl'.inode, fl'.deny_write))
  unfold handles
  rw [handle_set_file]
  rw [handle_of_file hf] at hupd
  simpa only [Option.some.injEq, set_file_next_file] using hupd

/-- A new handle. -/
theorem handles_new_file (hnone : s.file s.next_file = none) (fl : Pintos.file) (j : ℕ) (b : Bool) :
    (s.new_file fl).handles j b
      = s.handles j b + if (fl.inode, fl.deny_write) = (j, b) then 1 else 0 := by
  have hold : s.handle s.next_file = none := by
    unfold handle
    rw [hnone]
    rfl
  have hupd := occurrences_update (Nat.lt_succ_self s.next_file) s.handle (some (j, b))
    (some (fl.inode, fl.deny_write))
  have hsucc : occurrences (s.next_file + 1) s.handle (some (j, b)) = s.handles j b := by
    unfold handles occurrences
    rw [Finset.range_add_one, Finset.filter_insert, if_neg (by rw [hold]; simp)]
  rw [hold, if_neg (by simp), hsucc] at hupd
  have hhandle : (s.new_file fl).handle
      = Function.update s.handle s.next_file (some (fl.inode, fl.deny_write)) := by
    funext g
    unfold handle
    by_cases hg : g = s.next_file
    · rw [hg, new_file_file, Function.update_self, Function.update_self]
      rfl
    · rw [new_file_file, Function.update_of_ne hg, Function.update_of_ne hg]
  rw [handles, hhandle]
  simpa only [Option.some.injEq, new_file_next_file, Nat.add_zero] using hupd

/-- A handle less. -/
theorem handles_free_file (hlt : f < s.next_file) (hf : s.file f = some fl) (j : ℕ) (b : Bool) :
    (s.free_file f).handles j b + (if (fl.inode, fl.deny_write) = (j, b) then 1 else 0)
      = s.handles j b := by
  have hupd := occurrences_update hlt s.handle (some (j, b)) none
  rw [handle_of_file hf] at hupd
  have hhandle : (s.free_file f).handle = Function.update s.handle f none := by
    funext g
    unfold handle
    by_cases hg : g = f
    · rw [hg, free_file_file, Function.update_self, Function.update_self]
      rfl
    · rw [free_file_file, Function.update_of_ne hg, Function.update_of_ne hg]
  unfold handles
  rw [hhandle]
  simpa only [Option.some.injEq, free_file_next_file, reduceCtorEq, if_false,
    Nat.add_zero] using hupd

theorem set_file_cases {g : ℕ} {gl fl : Pintos.file} (hg : (s.set_file f fl).file g = some gl) :
    (g = f ∧ gl = fl) ∨ (g ≠ f ∧ s.file g = some gl) := by
  rw [set_file_file] at hg
  by_cases hgf : g = f
  · rw [hgf, Function.update_self] at hg
    exact .inl ⟨hgf, (Option.some.inj hg).symm⟩
  · rw [Function.update_of_ne hgf] at hg
    exact .inr ⟨hgf, hg⟩

theorem new_file_cases {g : ℕ} {gl fl : Pintos.file} (hg : (s.new_file fl).file g = some gl) :
    (g = s.next_file ∧ gl = fl) ∨ (g ≠ s.next_file ∧ s.file g = some gl) := by
  rw [new_file_file] at hg
  by_cases hgn : g = s.next_file
  · rw [hgn, Function.update_self] at hg
    exact .inl ⟨hgn, (Option.some.inj hg).symm⟩
  · rw [Function.update_of_ne hgn] at hg
    exact .inr ⟨hgn, hg⟩

theorem free_file_cases {g : ℕ} {gl : Pintos.file} (hg : (s.free_file f).file g = some gl) :
    g ≠ f ∧ s.file g = some gl := by
  rw [free_file_file] at hg
  by_cases hgf : g = f
  · rw [hgf, Function.update_self] at hg
    cases hg
  · rw [Function.update_of_ne hgf] at hg
    exact ⟨hgf, hg⟩

/-- An open inode stays open when it is stored to. -/
theorem set_inode_live (ino : Pintos.inode) {j : ℕ} (h : ∃ jno, s.inode j = some jno) :
    ∃ jno, (s.set_inode i ino).inode j = some jno := by
  obtain ⟨jno, hj⟩ := h
  by_cases hji : j = i
  · rw [hji]
    exact ⟨ino, Function.update_self _ _ _⟩
  · exact ⟨jno, (Function.update_of_ne hji _ _).trans hj⟩

/-- With no handle at all, as at the start of the kernel. -/
theorem held_of_no_file (hwf : s.OpenWf) (hfile : ∀ f, s.file f = none)
    (hdeny : ∀ {i ino}, s.inode i = some ino → ino.deny_write_cnt = 0) : s.HeldWf fun _ => 0 := by
  have hzero : ∀ i b, s.handles i b = 0 := by
    intro i b
    refine occurrences_eq_zero.mpr fun g _ hg => ?_
    unfold handle at hg
    rw [hfile g] at hg
    cases hg
  refine ⟨hwf, fun {f fl} hf => ?_, fun {f fl} hf => ?_, fun {i ino} hi => ?_, fun {i ino} hi => ?_⟩
  · rw [hfile f] at hf
    cases hf
  · rw [hfile f] at hf
    cases hf
  · rw [hzero, hdeny hi]
    rfl
  · have hpos := hwf.pos hi
    rw [hzero, hzero]
    push_cast
    omega

/-- One share of inode `i` more in hand. -/
def plus (p : ℕ → ℕ) (i : ℕ) : ℕ → ℕ := fun j => p j + if j = i then 1 else 0

theorem plus_self (p : ℕ → ℕ) (i : ℕ) : plus p i i = p i + 1 := by simp [plus]

theorem plus_of_ne (p : ℕ → ℕ) {i j : ℕ} (h : j ≠ i) : plus p i j = p j := by simp [plus, h]

namespace HeldWf

/-- A share that is lost (an inode with a bad magic number keeps its count). -/
theorem drop (h : s.HeldWf (plus p i)) : s.HeldWf p := by
  refine ⟨h.open_wf, h.fresh, h.live, h.deny, fun {j jno} hj => ?_⟩
  have hle := h.shares hj
  have hmono : p j ≤ plus p i j := Nat.le_add_right _ _
  push_cast at hle ⊢
  omega

/-- **`inode_reopen`**. -/
theorem reopen (h : s.HeldWf p) (hi : s.inode i = some ino) :
    (s.set_inode i { ino with open_cnt := ino.open_cnt + 1 }).HeldWf (plus p i) := by
  have hpos := h.open_wf.pos hi
  refine ⟨h.open_wf.set_inode hi rfl (by show 1 ≤ ino.open_cnt + 1; omega), h.fresh,
    fun hg => set_inode_live _ (h.live hg), fun {j jno} hj => ?_, fun {j jno} hj => ?_⟩
  · rcases set_inode_cases hj with ⟨rfl, rfl⟩ | ⟨-, hj⟩
    · have hdeny := h.deny hi
      exact hdeny
    · exact h.deny hj
  · rcases set_inode_cases hj with ⟨rfl, rfl⟩ | ⟨hne, hj⟩
    · have hle := h.shares hi
      rw [plus_self]
      show ((s.handles j true + s.handles j false + (p j + 1) : ℕ) : ℤ) ≤ ino.open_cnt + 1
      push_cast at hle ⊢
      omega
    · rw [plus_of_ne p hne]
      exact h.shares hj

/-- **`inode_open`** of an inode that is not open. -/
theorem load (h : s.HeldWf p) (hp : p s.next_inode = 0) {a : ℕ}
    (hno : ∀ j jno, s.inode j = some jno → jno.sector ≠ a) :
    (s.new_inode (fresh_inode s.disk a)).HeldWf (plus p s.next_inode) := by
  -- no handle is on the new inode
  have hnew : ∀ b, s.handles s.next_inode b = 0 := by
    intro b
    refine occurrences_eq_zero.mpr fun g _ hg => ?_
    unfold handle at hg
    obtain ⟨gl, hgl, heq⟩ := Option.map_eq_some_iff.mp hg
    obtain ⟨jno, hj⟩ := h.live hgl
    have hinode : gl.inode = s.next_inode := congrArg Prod.fst heq
    rw [hinode, h.open_wf.next_free] at hj
    cases hj
  refine ⟨h.open_wf.new_inode le_rfl hno, h.fresh, fun {g gl} hg => ?_, fun {j jno} hj => ?_,
    fun {j jno} hj => ?_⟩
  · obtain ⟨jno, hj⟩ := h.live hg
    exact ⟨jno, new_inode_old h.open_wf hj⟩
  · rcases new_inode_cases hj with ⟨rfl, rfl⟩ | ⟨-, hj⟩
    · show (0 : ℤ) = (s.handles s.next_inode true : ℤ)
      rw [hnew]
      rfl
    · exact h.deny hj
  · rcases new_inode_cases hj with ⟨rfl, rfl⟩ | ⟨hne, hj⟩
    · show ((s.handles s.next_inode true + s.handles s.next_inode false
        + plus p s.next_inode s.next_inode : ℕ) : ℤ) ≤ 1
      rw [hnew, hnew, plus_self, hp]
      rfl
    · rw [plus_of_ne p hne]
      exact h.shares hj

/-- **`file_open`** puts a share into a handle. -/
theorem file_open (h : s.HeldWf (plus p i)) (hi : s.inode i = some ino) :
    (Pintos.file_open s i).2.HeldWf p := by
  have hnone : s.file s.next_file = none := by
    cases hn : s.file s.next_file with
    | none => rfl
    | some fl => exact absurd (h.fresh hn) (lt_irrefl _)
  have hcount := handles_new_file (s := s) hnone
    { inode := i, pos := 0, deny_write := false, dup_count := 1 }
  refine ⟨h.open_wf.congr rfl rfl rfl, fun {g gl} hg => ?_, fun {g gl} hg => ?_,
    fun {j jno} hj => ?_, fun {j jno} hj => ?_⟩
  · rcases new_file_cases hg with ⟨rfl, -⟩ | ⟨-, hg⟩
    · exact Nat.lt_succ_self _
    · exact Nat.lt_succ_of_lt (h.fresh hg)
  · rcases new_file_cases hg with ⟨-, rfl⟩ | ⟨-, hg⟩
    · exact ⟨ino, hi⟩
    · exact h.live hg
  · show jno.deny_write_cnt = ((s.new_file _).handles j true : ℤ)
    rw [hcount, if_neg (by simp), Nat.add_zero]
    exact h.deny hj
  · have hle := h.shares hj
    show (((s.new_file _).handles j true + (s.new_file _).handles j false + p j : ℕ) : ℤ) ≤ _
    rw [hcount, hcount]
    by_cases hji : j = i
    · subst hji
      rw [plus_self] at hle
      simp only [Prod.mk.injEq, true_and, Bool.false_eq_true, if_false, if_true]
      push_cast at hle ⊢
      omega
    · rw [plus_of_ne p hji] at hle
      simp only [Prod.mk.injEq, Ne.symm hji, false_and, if_false, Nat.add_zero]
      exact hle

/-- **The flag changes**, and the count with it. -/
theorem set_flag (h : s.HeldWf p) (hf : s.file f = some fl) (hi : s.inode fl.inode = some ino)
    {b : Bool} (hb : fl.deny_write = !b) {n : ℤ}
    (hn : n = ino.deny_write_cnt + if b then 1 else -1) :
    ((s.set_file f { fl with deny_write := b }).set_inode fl.inode
      { ino with deny_write_cnt := n }).HeldWf p := by
  have hcount := handles_set_file (h.fresh hf) hf { fl with deny_write := b }
  have hpos := h.open_wf.pos hi
  have hset : (s.set_file f { fl with deny_write := b }).OpenWf := h.open_wf.congr rfl rfl rfl
  refine ⟨hset.set_inode hi rfl hpos, fun {g gl} hg => ?_, fun {g gl} hg => ?_,
    fun {j jno} hj => ?_, fun {j jno} hj => ?_⟩
  · rcases set_file_cases hg with ⟨rfl, -⟩ | ⟨-, hg⟩
    · exact h.fresh hf
    · exact h.fresh hg
  · apply set_inode_live
    rcases set_file_cases hg with ⟨-, rfl⟩ | ⟨-, hg⟩
    · exact ⟨ino, hi⟩
    · exact h.live hg
  · show jno.deny_write_cnt = ((s.set_file f { fl with deny_write := b }).handles j true : ℤ)
    have htrue := hcount j true
    rcases set_inode_cases hj with ⟨rfl, rfl⟩ | ⟨hne, hj⟩
    · have hdeny := h.deny hi
      rw [hb] at htrue
      cases b with
      | true =>
          simp at htrue hn ⊢
          omega
      | false =>
          simp at htrue hn ⊢
          omega
    · have hdeny := h.deny (show s.inode j = some jno from hj)
      simp only [Prod.mk.injEq, Ne.symm hne, false_and, if_false, Nat.add_zero] at htrue
      rw [htrue]
      exact hdeny
  · show (((s.set_file f { fl with deny_write := b }).handles j true
      + (s.set_file f { fl with deny_write := b }).handles j false + p j : ℕ) : ℤ) ≤ _
    have htrue := hcount j true
    have hfalse := hcount j false
    rcases set_inode_cases hj with ⟨rfl, rfl⟩ | ⟨hne, hj⟩
    · have hle := h.shares hi
      rw [hb] at htrue hfalse
      cases b with
      | true =>
          simp at htrue hfalse
          push_cast at hle ⊢
          omega
      | false =>
          simp at htrue hfalse
          push_cast at hle ⊢
          omega
    · have hle := h.shares (show s.inode j = some jno from hj)
      simp only [Prod.mk.injEq, Ne.symm hne, false_and, if_false, Nat.add_zero] at htrue hfalse
      rw [htrue, hfalse]
      exact hle

/-- The position does not matter. -/
theorem set_pos (h : s.HeldWf p) (hf : s.file f = some fl) {fl' : Pintos.file}
    (hinode : fl'.inode = fl.inode) (hdeny : fl'.deny_write = fl.deny_write) :
    (s.set_file f fl').HeldWf p := by
  have hcount : ∀ j b, (s.set_file f fl').handles j b = s.handles j b := by
    intro j b
    have hupd := handles_set_file (h.fresh hf) hf fl' j b
    rw [hinode, hdeny] at hupd
    omega
  refine ⟨h.open_wf.congr rfl rfl rfl, fun {g gl} hg => ?_, fun {g gl} hg => ?_,
    fun {j jno} hj => ?_, fun {j jno} hj => ?_⟩
  · rcases set_file_cases hg with ⟨rfl, -⟩ | ⟨-, hg⟩
    · exact h.fresh hf
    · exact h.fresh hg
  · rcases set_file_cases hg with ⟨-, rfl⟩ | ⟨-, hg⟩
    · rw [hinode]
      exact h.live hf
    · exact h.live hg
  · rw [hcount]
    exact h.deny hj
  · rw [hcount, hcount]
    exact h.shares hj

/-- **`free`** of a handle without the flag leaves its share. -/
theorem free_file (h : s.HeldWf p) (hf : s.file f = some fl) (hflag : fl.deny_write = false) :
    (s.free_file f).HeldWf (plus p fl.inode) := by
  have hcount := handles_free_file (h.fresh hf) hf
  rw [hflag] at hcount
  refine ⟨h.open_wf.congr rfl rfl rfl, fun hg => h.fresh (free_file_cases hg).2,
    fun hg => h.live (free_file_cases hg).2, fun {j jno} hj => ?_, fun {j jno} hj => ?_⟩
  · have htrue := hcount j true
    rw [if_neg (by simp), Nat.add_zero] at htrue
    rw [htrue]
    exact h.deny hj
  · have hle := h.shares hj
    have htrue := hcount j true
    have hfalse := hcount j false
    rw [if_neg (by simp), Nat.add_zero] at htrue
    by_cases hji : j = fl.inode
    · rw [hji] at hle htrue hfalse ⊢
      rw [if_pos rfl] at hfalse
      rw [plus_self]
      push_cast at hle ⊢
      omega
    · rw [if_neg (by simp [Ne.symm hji]), Nat.add_zero] at hfalse
      rw [plus_of_ne p hji, htrue, hfalse]
      exact hle

/-- **`inode_close`** gives a share back. -/
theorem inode_close (h : s.HeldWf (plus p i)) (hclose : inode_close s i = .ok s') :
    s'.HeldWf p := by
  obtain ⟨ino, hi, hcases⟩ := inode_close_cases hclose
  have hle := h.shares hi
  rw [plus_self] at hle
  rcases hcases with ⟨-, rfl⟩ | ⟨-, hone, fs, -, rfl⟩ | ⟨-, hne, rfl⟩
  · exact h.drop
  · -- the last share: no handle is left on this inode
    rw [hone] at hle
    push_cast at hle
    have hzero : ∀ b, s.handles i b = 0 := by
      intro b
      cases b with
      | true => omega
      | false => omega
    have hwf : (s.set_fat fs).OpenWf := h.open_wf.congr rfl rfl rfl
    refine ⟨hwf.free_inode i, h.fresh, fun {g gl} hg => ?_, fun {j jno} hj => ?_,
      fun {j jno} hj => ?_⟩
    · obtain ⟨jno, hj⟩ := h.live hg
      have hgi : gl.inode ≠ i := by
        rintro rfl
        have hpos : 0 < s.handles gl.inode gl.deny_write :=
          occurrences_pos.mpr ⟨g, h.fresh hg, handle_of_file hg⟩
        rw [hzero] at hpos
        exact absurd hpos (lt_irrefl _)
      exact ⟨jno, (free_inode_other hgi).trans hj⟩
    · exact h.deny (free_inode_cases hj).2
    · obtain ⟨hji, hj⟩ := free_inode_cases hj
      have hshare := h.shares (show s.inode j = some jno from hj)
      rw [plus_of_ne p hji] at hshare
      exact hshare
  · have hpos := h.open_wf.pos hi
    refine ⟨h.open_wf.set_inode hi rfl (by show 1 ≤ ino.open_cnt - 1; omega), h.fresh,
      fun hg => set_inode_live _ (h.live hg), fun {j jno} hj => ?_, fun {j jno} hj => ?_⟩
    · rcases set_inode_cases hj with ⟨rfl, rfl⟩ | ⟨-, hj⟩
      · have hdeny := h.deny hi
        exact hdeny
      · exact h.deny hj
    · rcases set_inode_cases hj with ⟨rfl, rfl⟩ | ⟨hji, hj⟩
      · show ((s.handles j true + s.handles j false + p j : ℕ) : ℤ) ≤ ino.open_cnt - 1
        push_cast at hle ⊢
        omega
      · have hshare := h.shares hj
        rw [plus_of_ne p hji] at hshare
        exact hshare

/-! ### The calls -/

/-- **`file_deny_write`**: the handle without the flag has a share that is not counted, so
the assertion holds. -/
theorem file_deny_write (h : s.HeldWf p) (hf : s.file f = some fl) :
    ∃ s', file_deny_write s f = .ok s' ∧ s'.HeldWf p := by
  obtain ⟨ino, hi⟩ := h.live hf
  unfold Pintos.file_deny_write
  rw [get_file_eq_ok.mpr hf, Outcome.ok_bind]
  cases hflag : fl.deny_write with
  | true => exact ⟨s, rfl, h⟩
  | false =>
      have hroom : ino.deny_write_cnt + 1 ≤ ino.open_cnt := by
        have hpos : 0 < s.handles fl.inode false := by
          refine occurrences_pos.mpr ⟨f, h.fresh hf, ?_⟩
          rw [handle_of_file hf, hflag]
        have hle := h.shares hi
        rw [h.deny hi]
        push_cast at hle ⊢
        omega
      rw [if_neg (by simp), get_inode_eq_ok.mpr hi, Outcome.ok_bind, Outcome.assert_pos hroom,
        Outcome.ok_bind]
      exact ⟨_, rfl, h.set_flag hf hi (b := true) hflag rfl⟩

/-- **`file_allow_write`**: the handle with the flag is counted. -/
theorem file_allow_write (h : s.HeldWf p) (hf : s.file f = some fl) :
    ∃ s', file_allow_write s f = .ok s' ∧ s'.HeldWf p
      ∧ s'.file f = some { fl with deny_write := false } := by
  obtain ⟨ino, hi⟩ := h.live hf
  unfold Pintos.file_allow_write
  rw [get_file_eq_ok.mpr hf, Outcome.ok_bind]
  cases hflag : fl.deny_write with
  | false =>
      refine ⟨s, rfl, h, ?_⟩
      rw [hf, ← hflag]
  | true =>
      have hcounted : 0 < ino.deny_write_cnt := by
        have hpos : 0 < s.handles fl.inode true := by
          refine occurrences_pos.mpr ⟨f, h.fresh hf, ?_⟩
          rw [handle_of_file hf, hflag]
        rw [h.deny hi]
        exact_mod_cast hpos
      have hle : ino.deny_write_cnt ≤ ino.open_cnt := by
        have hshares := h.shares hi
        rw [h.deny hi]
        push_cast at hshares
        omega
      rw [if_pos rfl, get_inode_eq_ok.mpr hi, Outcome.ok_bind, Outcome.assert_pos hcounted,
        Outcome.ok_bind, Outcome.assert_pos hle, Outcome.ok_bind]
      refine ⟨_, rfl, h.set_flag hf hi (b := false) hflag ?_, Function.update_self _ _ _⟩
      rw [if_neg (by simp)]
      rfl

/-- **`file_reopen`**: a new handle without the flag. -/
theorem file_reopen (h : s.HeldWf p) (hf : s.file f = some fl) :
    ∃ s', file_reopen s f = .ok (s.next_file, s') ∧ s'.HeldWf p
      ∧ s'.file s.next_file = some { inode := fl.inode, pos := 0, deny_write := false, dup_count := 1 }
      ∧ ∀ g, g ≠ s.next_file → s'.file g = s.file g := by
  obtain ⟨ino, hi⟩ := h.live hf
  unfold Pintos.file_reopen inode_reopen
  rw [get_file_eq_ok.mpr hf, Outcome.ok_bind, get_inode_eq_ok.mpr hi, Outcome.ok_bind]
  have hopen := (h.reopen hi).file_open (Function.update_self _ _ _)
  exact ⟨_, rfl, hopen, Function.update_self _ _ _, fun g hg => Function.update_of_ne hg _ _⟩

/-- **`file_duplicate`**: the copy of a flag is counted. -/
theorem file_duplicate (h : s.HeldWf p) (hf : s.file f = some fl) :
    ∃ s', file_duplicate s f = .ok (s.next_file, s') ∧ s'.HeldWf p := by
  obtain ⟨s₁, hreopen, h₁, hnew, -⟩ := h.file_reopen hf
  unfold Pintos.file_duplicate
  rw [get_file_eq_ok.mpr hf, Outcome.ok_bind, hreopen, Outcome.ok_bind]
  dsimp only
  rw [get_file_eq_ok.mpr hnew, Outcome.ok_bind]
  have h₂ := h₁.set_pos hnew
    (show ({ inode := fl.inode, pos := fl.pos, deny_write := false, dup_count := 1 }
      : Pintos.file).inode = fl.inode from rfl) rfl
  cases hflag : fl.deny_write with
  | false => exact ⟨_, rfl, h₂⟩
  | true =>
      obtain ⟨s₃, hdeny, h₃⟩ := h₂.file_deny_write (Function.update_self _ _ _)
      rw [if_pos rfl, hdeny, Outcome.ok_bind]
      exact ⟨s₃, rfl, h₃⟩

/-- **`file_close`**: the flag is taken back before the share. -/
theorem file_close (h : s.HeldWf p) (hclose : file_close s f = .ok s') : s'.HeldWf p := by
  obtain ⟨s₁, hallow, hrest⟩ := Outcome.bind_eq_ok.mp hclose
  obtain ⟨fl₁, hf₁, hrest⟩ := Outcome.bind_eq_ok.mp hrest
  obtain ⟨s₂, hinode, hret⟩ := Outcome.bind_eq_ok.mp hrest
  obtain rfl := Outcome.ok.inj hret
  obtain ⟨fl, hf, -⟩ := Outcome.bind_eq_ok.mp hallow
  obtain ⟨s₁', hallow', h₁, hflag⟩ := h.file_allow_write (get_file_eq_ok.mp hf)
  obtain rfl := Outcome.ok.inj (hallow.symm.trans hallow')
  rw [get_file_eq_ok, hflag] at hf₁
  obtain rfl := Option.some.inj hf₁
  -- `inode_close` does not look at handles, so the handle may as well go first
  have hfree := h₁.free_file hflag rfl
  obtain ⟨ino, hi, hcases⟩ := inode_close_cases hinode
  have hcomm : Pintos.inode_close (s₁.free_file f) fl.inode = .ok (s₂.free_file f) := by
    obtain ⟨ino', hi', hrest'⟩ := Outcome.bind_eq_ok.mp hinode
    unfold Pintos.inode_close
    rw [show (s₁.free_file f).get_inode fl.inode = .ok ino' from hi', Outcome.ok_bind]
    by_cases hmagic : ino'.data.magic ≠ INODE_MAGIC
    · rw [if_pos hmagic] at hrest' ⊢
      obtain rfl := Outcome.ok.inj hrest'
      rfl
    · rw [if_neg hmagic] at hrest' ⊢
      by_cases hlast : ino'.open_cnt - 1 = 0
      · rw [if_pos hlast] at hrest' ⊢
        obtain ⟨fs, hfs, hret'⟩ := Outcome.bind_eq_ok.mp hrest'
        obtain rfl := Outcome.ok.inj hret'
        rw [show (s₁.free_file f).fat = s₁.fat from rfl, hfs]
        rfl
      · rw [if_neg hlast] at hrest' ⊢
        obtain rfl := Outcome.ok.inj hrest'
        rfl
  exact hfree.inode_close hcomm

/-- **`inode_open`** and **`file_open`**. -/
theorem opened (h : s.HeldWf fun _ => 0) {a : ℕ} (hopen : inode_open s a = .ok (i, s')) :
    (Pintos.file_open s' i).2.HeldWf fun _ => 0 := by
  rcases inode_open_cases h.open_wf hopen with ⟨ino, hi, -, rfl⟩ | ⟨hno, rfl, rfl⟩
  · exact (h.reopen hi).file_open (Function.update_self _ _ _)
  · exact (h.load rfl hno).file_open (Function.update_self _ _ _)

/-- **One call.** -/
theorem step (h : s.HeldWf fun _ => 0) {c : file_call} (hstep : file_step s c = .ok s') :
    s'.HeldWf fun _ => 0 := by
  cases c with
  | «open» a =>
      obtain ⟨⟨i, s₁⟩, hopen, hret⟩ := Outcome.bind_eq_ok.mp hstep
      obtain rfl := Outcome.ok.inj hret
      exact h.opened hopen
  | reopen f =>
      obtain ⟨⟨nf, s₁⟩, hreopen, hret⟩ := Outcome.bind_eq_ok.mp hstep
      obtain rfl := Outcome.ok.inj hret
      obtain ⟨fl, hf, -⟩ := Outcome.bind_eq_ok.mp hreopen
      obtain ⟨s₂, hok, h₂, -⟩ := h.file_reopen (get_file_eq_ok.mp hf)
      cases Outcome.ok.inj (hreopen.symm.trans hok)
      exact h₂
  | duplicate f =>
      obtain ⟨⟨nf, s₁⟩, hdup, hret⟩ := Outcome.bind_eq_ok.mp hstep
      obtain rfl := Outcome.ok.inj hret
      obtain ⟨fl, hf, -⟩ := Outcome.bind_eq_ok.mp hdup
      obtain ⟨s₂, hok, h₂⟩ := h.file_duplicate (get_file_eq_ok.mp hf)
      cases Outcome.ok.inj (hdup.symm.trans hok)
      exact h₂
  | deny_write f =>
      obtain ⟨fl, hf, -⟩ := Outcome.bind_eq_ok.mp hstep
      obtain ⟨s₂, hok, h₂⟩ := h.file_deny_write (get_file_eq_ok.mp hf)
      cases Outcome.ok.inj (hstep.symm.trans hok)
      exact h₂
  | allow_write f =>
      obtain ⟨fl, hf, -⟩ := Outcome.bind_eq_ok.mp hstep
      obtain ⟨s₂, hok, h₂, -⟩ := h.file_allow_write (get_file_eq_ok.mp hf)
      cases Outcome.ok.inj (hstep.symm.trans hok)
      exact h₂
  | close f => exact h.file_close hstep

/-- **Every sequence.** -/
theorem run (h : s.HeldWf fun _ => 0) {cs : List file_call} (hrun : file_run cs s = .ok s') :
    s'.HeldWf fun _ => 0 := by
  induction cs generalizing s with
  | nil =>
      obtain rfl := Outcome.ok.inj hrun
      exact h
  | cons c cs ih =>
      obtain ⟨s₁, hstep, hrest⟩ := Outcome.bind_eq_ok.mp hrun
      exact ih (h.step hstep) hrest

end HeldWf

end filesys

/-- **Write denial.** After every sequence of calls the count of an inode is the number of
handles with the flag, and at most `open_cnt`; the assertions of `file_deny_write`,
`file_allow_write` and `file_duplicate` hold; and a write through an inode whose count is
positive does nothing. -/
theorem deny_write_counts {s s' : filesys} (h : s.HeldWf fun _ => 0) {cs : List file_call}
    (hrun : file_run cs s = .ok s') :
    (∀ i ino, s'.inode i = some ino → ino.deny_write_cnt = s'.handles i true
      ∧ ino.deny_write_cnt ≤ ino.open_cnt)
    ∧ (∀ f fl, s'.file f = some fl → (file_deny_write s' f).Returns
      ∧ (file_allow_write s' f).Returns ∧ (file_duplicate s' f).Returns)
    ∧ ∀ i ino, s'.inode i = some ino → 0 < ino.deny_write_cnt → ∀ buffer size offset,
      inode_write_at s'.disk s'.fat ino buffer size offset = .ok (0, s'.disk, s'.fat, ino) := by
  have h' := h.run hrun
  refine ⟨fun i ino hi => ⟨h'.deny hi, ?_⟩, fun f fl hf => ⟨?_, ?_, ?_⟩,
    fun i ino hi hpos buffer size offset => ?_⟩
  · have hle := h'.shares hi
    rw [h'.deny hi]
    push_cast at hle
    omega
  · obtain ⟨s₁, hok, -⟩ := h'.file_deny_write hf
    exact ⟨s₁, hok⟩
  · obtain ⟨s₁, hok, -⟩ := h'.file_allow_write hf
    exact ⟨s₁, hok⟩
  · obtain ⟨s₁, hok, -⟩ := h'.file_duplicate hf
    exact ⟨_, hok⟩
  · unfold inode_write_at
    rw [if_pos hpos.ne']
    rfl

/-- Nothing is open in the file system with one file. -/
theorem inode_holders.one_file_held : inode_holders.one_file.fs.HeldWf fun _ => 0 := by
  have hwf : inode_holders.one_file.fs.OpenWf := by
    constructor
    case nodup => exact List.nodup_nil
    case listed =>
      intro i
      refine iff_of_false List.not_mem_nil ?_
      rintro ⟨ino, hi⟩
      cases hi
    all_goals
      intros
      contradiction
  refine filesys.held_of_no_file hwf (fun _ => rfl) ?_
  intro i ino hi
  cases hi

/-- A handle denies writing, its copy does too, and outlives it. -/
theorem denied_by_copy : ∃ s' : filesys,
    file_run [.open 3, .deny_write 0, .duplicate 0, .close 0] inode_holders.one_file.fs = .ok s'
    ∧ (s'.inode 0).map (·.deny_write_cnt) = some 1
    ∧ ∀ i ino, s'.inode i = some ino → ino.deny_write_cnt = s'.handles i true
      ∧ ino.deny_write_cnt ≤ ino.open_cnt := by
  have hreturns : (file_run [.open 3, .deny_write 0, .duplicate 0, .close 0]
      inode_holders.one_file.fs).satisfies
      (fun s' => (s'.inode 0).map (·.deny_write_cnt) = some 1) = true := by decide +kernel
  obtain ⟨s', hrun, hcount⟩ := Outcome.satisfies_iff.mp hreturns
  exact ⟨s', hrun, of_decide_eq_true hcount, (deny_write_counts inode_holders.one_file_held hrun).1⟩

end Pintos
