/-
`filesys/fat.c` under preemption: calls that allocate, of any number of processes.

`fat_create_chain` reads the table until it finds a free cluster and writes it later, in three
separate stores. `sys_create` and `sys_write` run it with `filesys_lock` held, and `sys_mkdir`
does not. A thread can be preempted between any two accesses, so one event is one access; what
a call allocates, and in which order, is left open.
-/
import Pintos.Filesys.ChainCover

set_option autoImplicit false

namespace Pintos.allocation

/-! ## Threads -/

/-- The calls that allocate. -/
inductive call
  | mkdir
  | create
  | write
  deriving DecidableEq, Repr

/-- `sys_create` and `sys_write` take `filesys_lock`. -/
def call.locks : call → Bool
  | .mkdir => false
  | .create | .write => true

/-- Who has called `fat_create_chain`. -/
inductive ret
  /-- `fat_create_chain (0)` of `sys_mkdir` and `inode_write_at`: a new chain. -/
  | head
  /-- `fat_create_chain (inode->data.start)` of `inode_write_at`. -/
  | tail
  /-- `fat_allocate`, for the start of the chain, with `cnt` clusters to go. -/
  | first (cnt : ℕ)
  /-- The loop of `fat_allocate`. -/
  | next (start cnt : ℕ)
  deriving DecidableEq, Repr

/-- Where `fat_create_chain` is. -/
inductive stage
  /-- The loop of `find_free_cluster`. -/
  | scan (find_end finding_clst : ℕ)
  /-- Before `fat_put (new_clst, EOChain)`. -/
  | claim (new_clst : ℕ)
  /-- Before `last_clst = new_clst`. -/
  | hint (new_clst : ℕ)
  /-- The loop to the end of the chain. -/
  | walk (new_clst : ℕ)
  /-- Before `fat_put (clst, new_clst)`. -/
  | link (new_clst : ℕ)
  deriving DecidableEq, Repr

/-- Where a thread is. -/
inductive point
  | user
  | body (k : call)
  /-- The loop of `fat_allocate`. -/
  | loop (k : call) (start prev cnt : ℕ)
  | request (k : call) (r : ret) (clst : ℕ) (g : stage)
  /-- The loop of `fat_remove_chain`, for a chain that `fat_allocate` gives up. -/
  | remove (k : call) (clst : ℕ)
  deriving DecidableEq, Repr

/-- The file system and the threads. -/
structure state where
  fs : fat_fs
  /-- The holder of `filesys_lock`. -/
  lock : Option ℕ
  point : ℕ → point
  /-- The starts of the chains of files. -/
  heads : List ℕ
  /-- What `fat_create_chain` has returned, less what has been freed again. -/
  returned : List ℕ

namespace state

def goto (s : state) (t : ℕ) (q : allocation.point) : state :=
  { s with point := Function.update s.point t q }

def set_fs (s : state) (fs : fat_fs) : state := { s with fs := fs }

def publish (s : state) (c : ℕ) : state :=
    { s with heads := if c = 0 then s.heads else c :: s.heads }

def hand_out (s : state) (c : ℕ) : state :=
  { s with returned := if c = 0 then s.returned else c :: s.returned }

end state

/-! ## Steps -/

/-- `fat_create_chain` is called. -/
def begin_request (s : state) (t : ℕ) (k : call) (r : ret) (clst : ℕ) : Option state :=
  if clst < s.fs.fat_length then
    some (s.goto t (.request k r clst (.scan s.fs.last_clst (s.fs.last_clst + 1))))
  else none

/-- `fat_create_chain` returns `new_clst`. -/
def end_request (s : state) (t : ℕ) (k : call) (r : ret) (new_clst : ℕ) : state :=
  match r with
  | .head => ((s.hand_out new_clst).publish new_clst).goto t (.body k)
  | .tail => (s.hand_out new_clst).goto t (.body k)
  | .first cnt => (s.hand_out new_clst).goto t (.loop k new_clst new_clst cnt)
  | .next start cnt => (s.hand_out new_clst).goto t (.loop k start new_clst cnt)

/-- One access of `fat_create_chain`. -/
def request_step (s : state) (t : ℕ) (k : call) (r : ret) (clst : ℕ) : stage → Option state
  | .scan find_end finding_clst =>
      if finding_clst = find_end then some (end_request s t k r 0)
      else do
        let v ← (fat_get s.fs finding_clst).toOption
        if v = 0 then some (s.goto t (.request k r clst (.claim finding_clst)))
        else
          let finding_clst := finding_clst + 1
          some (s.goto t (.request k r clst
            (.scan find_end (if finding_clst = s.fs.fat_length then 2 else finding_clst))))
  | .claim new_clst => do
      let fs ← (fat_put s.fs new_clst EOChain).toOption
      some ((s.set_fs fs).goto t (.request k r clst (.hint new_clst)))
  | .hint new_clst =>
      let s := s.set_fs { s.fs with last_clst := new_clst }
      if clst = 0 then some (end_request s t k r new_clst)
      else some (s.goto t (.request k r clst (.walk new_clst)))
  | .walk new_clst =>
      if clst = ROOT_DIR_CLUSTER then some (s.goto t (.request k r clst (.link new_clst)))
      else do
        let v ← (fat_get s.fs clst).toOption
        if v = EOChain then some (s.goto t (.request k r clst (.link new_clst)))
        else some (s.goto t (.request k r v (.walk new_clst)))
  | .link new_clst => do
      let fs ← (fat_put s.fs clst new_clst).toOption
      some (end_request (s.set_fs fs) t k r new_clst)

/-- The test of the loop of `fat_allocate`, and what follows. -/
def loop_step (s : state) (t : ℕ) (k : call) (start prev cnt : ℕ) : Option state :=
  if prev ≠ 0 ∧ cnt ≠ 0 then begin_request s t k (.next start (cnt - 1)) prev
  else if cnt ≠ 0 then
    if start < s.fs.fat_length then some (s.goto t (.remove k start)) else none
  else some ((s.publish start).goto t (.body k))

/-- One pass of the loop of `fat_remove_chain`. -/
def remove_step (s : state) (t : ℕ) (k : call) (clst : ℕ) : Option state :=
  if clst = EOChain then some (s.goto t (.body k))
  else do
    let next ← (fat_get s.fs clst).toOption
    let fs ← (fat_put s.fs clst 0).toOption
    let s := s.set_fs (if fs.last_clst = clst then { fs with last_clst := 2 } else fs)
    some (({ s with returned := s.returned.filter (· ≠ clst) }).goto t (.remove k next))

/-- What a thread can do. -/
inductive event
  | enter (k : call)
  | leave
  /-- `fat_create_chain`, on nothing or on the start of a file. -/
  | create_chain (clst : ℕ)
  /-- `fat_allocate`. -/
  | allocate (cnt : ℕ)
  /-- The next access. -/
  | go

/-- **One event** of thread `t`, if it can happen; an access outside of the table ends the run,
and so does an assertion that fails. -/
def step (s : state) (t : ℕ) : event → Option state
  | .enter k =>
      match s.point t with
      | .user =>
          if k.locks then
            if s.lock = none then some { s.goto t (.body k) with lock := some t } else none
          else some (s.goto t (.body k))
      | _ => none
  | .leave =>
      match s.point t with
      | .body k => some { s.goto t .user with lock := if k.locks then none else s.lock }
      | _ => none
  | .create_chain clst =>
      match s.point t with
      | .body k =>
          if clst = 0 then begin_request s t k .head 0
          else if clst ∈ s.heads then begin_request s t k .tail clst
          else none
      | _ => none
  | .allocate cnt =>
      match s.point t with
      | .body k => if cnt = 0 then some s else begin_request s t k (.first (cnt - 1)) 0
      | _ => none
  | .go =>
      match s.point t with
      | .loop k start prev cnt => loop_step s t k start prev cnt
      | .request k r clst g => request_step s t k r clst g
      | .remove k clst => remove_step s t k clst
      | _ => none

/-- Events of the threads, in order. -/
def run (s : state) : List (ℕ × event) → Option state
  | [] => some s
  | (t, e) :: es => do
      let s ← step s t e
      run s es

/-! ## What the allocator owes -/

/-- A cluster number, or `0` or `EOChain`. -/
def chain_at (clst : ℕ) : List ℕ := if clst = 0 ∨ clst = EOChain then [] else [clst]

def ret.roots : ret → List ℕ
  | .next start _ => chain_at start
  | _ => []

def stage.roots : stage → List ℕ
  | .hint new_clst | .walk new_clst | .link new_clst => [new_clst]
  | _ => []

/-- The chains that a thread has and no file has. -/
def point.roots : point → List ℕ
  | .loop _ start _ _ => chain_at start
  | .request _ r _ g => r.roots ++ g.roots
  | .remove _ clst => chain_at clst
  | _ => []

/-- The start of a chain: of a file, or in the hands of a thread. -/
def state.Root (s : state) (h : ℕ) : Prop := h ∈ s.heads ∨ ∃ t, h ∈ (s.point t).roots

/-- **No cluster is allocated twice.** -/
structure Allocated (s : state) : Prop where
  /-- No cluster has been returned to two requests. -/
  once : s.returned.Nodup
  claimed : ∀ c ∈ s.returned, s.fs.fat c ≠ 0
  /-- Every cluster in use is on exactly one chain. -/
  linked : ∀ c, 1 ≤ c → c < s.fs.fat_length → s.fs.fat c ≠ 0 → ∃! h, s.Root h ∧ OnChain s.fs h c

/-- **What other threads may not have done** before an event: the cluster that is claimed is
still free, and the one behind which it is linked is still the last of its chain. -/
def Good (s : state) (t : ℕ) : event → Prop
  | .go =>
      match s.point t with
      | .request _ _ _ (.claim new_clst) => s.fs.fat new_clst = 0
      | .request _ _ clst (.link _) => s.fs.fat clst = EOChain
      | _ => True
  | _ => True

/-- Every event is good. -/
def GoodRun (s : state) : List (ℕ × event) → Prop
  | [] => True
  | (t, e) :: es => Good s t e ∧ ∀ s', step s t e = some s' → GoodRun s' es

/-- No call is under way, and every cluster in use is on the chain of one file. -/
structure Start (s : state) : Prop where
  wf : s.fs.Wf
  zero : s.fs.fat 0 = 0
  cover : Cover s.fs (· ∈ s.heads)
  user : ∀ t, s.point t = .user
  returned : s.returned = []
  lock : s.lock = none

/-! ## The invariant -/

/-- A claimed cluster that is not linked. -/
structure Held (s : state) (c : ℕ) : Prop where
  two_le : 2 ≤ c
  chain : Chain s.fs c [c]
  fresh : c ∉ s.returned

/-- The chain a request works on. -/
def Anchored (s : state) (clst : ℕ) : ret → Prop
  | .head | .first _ => clst = 0
  | .tail => ∃ h ∈ s.heads, OnChain s.fs h clst
  | .next start _ => OnChain s.fs start clst

/-- What a stage has made sure of. -/
def StageOk (s : state) (clst : ℕ) : stage → Prop
  | .scan _ finding_clst => 2 ≤ finding_clst
  | .claim new_clst => 2 ≤ new_clst ∧ new_clst < s.fs.fat_length
  | .hint new_clst => Held s new_clst
  | .walk new_clst | .link new_clst => Held s new_clst ∧ clst ≠ 0

/-- Where a thread is, it may be. -/
def PointOk (s : state) : point → Prop
  | .loop _ start prev _ => start ≠ EOChain ∧ (prev = 0 ∨ OnChain s.fs start prev)
  | .request _ r clst g => Anchored s clst r ∧ StageOk s clst g
  | _ => True

/-- **The invariant of the allocator.** -/
structure Inv (s : state) : Prop where
  wf : s.fs.Wf
  zero : s.fs.fat 0 = 0
  cover : Cover s.fs s.Root
  /-- A chain in the hands of a thread is no file's. -/
  own : ∀ t, ∀ c ∈ (s.point t).roots, c ∉ s.heads
  /-- And no other thread's. -/
  apart : ∀ t u, ∀ c ∈ (s.point t).roots, c ∈ (s.point u).roots → t = u
  distinct : ∀ t, (s.point t).roots.Nodup
  points : ∀ t, PointOk s (s.point t)
  once : s.returned.Nodup
  claimed : ∀ c ∈ s.returned, s.fs.fat c ≠ 0

section Roots

variable {s : state} {t u c h x : ℕ}

theorem mem_chain_at : c ∈ chain_at x ↔ c = x ∧ x ≠ 0 ∧ x ≠ EOChain := by
  unfold chain_at
  by_cases hx : x = 0 ∨ x = EOChain
  · rw [if_pos hx]
    refine iff_of_false List.not_mem_nil ?_
    rintro ⟨-, h0, hend⟩
    exact hx.elim h0 hend
  · rw [if_neg hx, List.mem_singleton]
    exact ⟨fun h => ⟨h, not_or.mp hx⟩, fun h => h.1⟩

theorem chain_at_nodup : (chain_at x).Nodup := by
  unfold chain_at
  split_ifs
  · exact List.nodup_nil
  · exact List.nodup_singleton x

/-- What has a chain is a cluster. -/
theorem OnChain.mem_chain_at {fs : fat_fs} (hg : fs.Geometry) (hc : OnChain fs h c) :
    h ∈ chain_at h := by
  obtain ⟨l, hch, hmem⟩ := hc
  have hh : h ∈ l := hch.path.start_mem (List.ne_nil_of_mem hmem)
  have hrange := hch.range h hh
  have hlen := hg.length_le
  exact allocation.mem_chain_at.mpr ⟨rfl, by omega, by omega⟩

/-- The roots that are not thread `t`'s. -/
def Others (s : state) (t h : ℕ) : Prop := h ∈ s.heads ∨ ∃ u ≠ t, h ∈ (s.point u).roots

theorem root_iff : s.Root h ↔ Others s t h ∨ h ∈ (s.point t).roots := by
  unfold state.Root Others
  refine ⟨?_, ?_⟩
  · rintro (hh | ⟨u, hu⟩)
    · exact .inl (.inl hh)
    · by_cases hut : u = t
      · exact .inr (hut ▸ hu)
      · exact .inl (.inr ⟨u, hut, hu⟩)
  · rintro ((hh | ⟨u, -, hu⟩) | ht)
    · exact .inl hh
    · exact .inr ⟨u, hu⟩
    · exact .inr ⟨t, ht⟩

theorem Inv.not_others (hinv : Inv s) (hc : c ∈ (s.point t).roots) : ¬ Others s t c := by
  rintro (hh | ⟨u, hut, hu⟩)
  · exact hinv.own t c hc hh
  · exact hut (hinv.apart u t c hu hc)

end Roots

/-! ## One thread moves -/

section Move

variable {s s' : state} {t : ℕ} {q : point}

/-- A thread's point in a state whose table has changed elsewhere. -/
theorem PointOk.frame (hg : s.fs.Geometry) (hlen : s'.fs.fat_length = s.fs.fat_length)
    (hheads : ∀ h ∈ s.heads, h ∈ s'.heads ∧ ∀ x, OnChain s.fs h x → OnChain s'.fs h x)
    (hown : ∀ c ∈ q.roots, ∀ l, Chain s.fs c l → Chain s'.fs c l)
    (hret : ∀ c ∈ q.roots, c ∈ s'.returned → c ∈ s.returned) (hq : PointOk s q) : PointOk s' q := by
  have hchain : ∀ start x, (∀ c ∈ chain_at start, c ∈ q.roots) → OnChain s.fs start x →
      OnChain s'.fs start x := by
    intro start x hmem hx
    have hroot := hmem start (OnChain.mem_chain_at hg hx)
    obtain ⟨l, hch, hxl⟩ := hx
    exact ⟨l, hown start hroot l hch, hxl⟩
  have hheld : ∀ c ∈ q.roots, Held s c → Held s' c := by
    intro c hc hheld
    exact ⟨hheld.two_le, hown c hc _ hheld.chain, fun hmem => hheld.fresh (hret c hc hmem)⟩
  cases q with
  | user | body | remove => trivial
  | loop k start prev cnt => exact ⟨hq.1, hq.2.imp_right (hchain start prev fun c hc => hc)⟩
  | request k r clst g =>
      refine ⟨?_, ?_⟩
      · cases r with
        | head | first => exact hq.1
        | tail =>
            obtain ⟨h, hh, hc⟩ := hq.1
            exact ⟨h, (hheads h hh).1, (hheads h hh).2 clst hc⟩
        | next start cnt =>
            exact hchain start clst (fun c hc => List.mem_append_left _ hc) hq.1
      · cases g with
        | scan => exact hq.2
        | claim new_clst => exact ⟨hq.2.1, hlen ▸ hq.2.2⟩
        | hint new_clst => exact hheld _ (by simp [point.roots, stage.roots]) hq.2
        | walk new_clst | link new_clst =>
            exact ⟨hheld _ (by simp [point.roots, stage.roots]) hq.2.1, hq.2.2⟩

/-- **What a step of thread `t` has to keep.** -/
structure Moves (s : state) (t : ℕ) (q : point) (s' : state) : Prop where
  moved : s'.point = Function.update s.point t q
  wf : s'.fs.Wf
  zero : s'.fs.fat 0 = 0
  length : s'.fs.fat_length = s.fs.fat_length
  cover : Cover s'.fs fun h => (h ∈ s'.heads ∨ ∃ u ≠ t, h ∈ (s.point u).roots) ∨ h ∈ q.roots
  /-- A new root was free. -/
  roots : ∀ c ∈ q.roots, c ∈ (s.point t).roots ∨ ¬ s.Root c
  distinct : q.roots.Nodup
  /-- A new file had been a chain of the thread. -/
  heads : ∀ c ∈ s'.heads, c ∈ s.heads ∨ c ∈ (s.point t).roots ∧ c ∉ q.roots
  files : ∀ h ∈ s.heads, h ∈ s'.heads ∧ ∀ x, OnChain s.fs h x → OnChain s'.fs h x
  others : ∀ u ≠ t, ∀ c ∈ (s.point u).roots, ∀ l, Chain s.fs c l → Chain s'.fs c l
  returned : ∀ c ∈ s'.returned, c ∈ s.returned ∨ c ∈ (s.point t).roots
  once : s'.returned.Nodup
  claimed : ∀ c ∈ s'.returned, s'.fs.fat c ≠ 0
  ok : PointOk s' q

/-- **The step lemma**: what thread `t` keeps, the threads keep. -/
theorem Inv.move (hinv : Inv s) (h : Moves s t q s') : Inv s' := by
  have hself : s'.point t = q := by
    rw [h.moved, Function.update_self]
  have hother : ∀ u, u ≠ t → s'.point u = s.point u := by
    intro u hu
    rw [h.moved, Function.update_of_ne hu]
  -- The roots of `t` are no other's: they are old, or they were free.
  have hnew : ∀ c ∈ q.roots, ∀ u ≠ t, c ∉ (s.point u).roots := by
    intro c hc u hut hu
    rcases h.roots c hc with hold | hfree
    · exact hut (hinv.apart u t c hu hold)
    · exact hfree (.inr ⟨u, hu⟩)
  refine ⟨h.wf, h.zero, ?_, ?_, ?_, ?_, ?_, h.once, h.claimed⟩
  · refine h.cover.roots fun r => ?_
    rw [root_iff (t := t), hself]
    refine or_congr (or_congr Iff.rfl ?_) Iff.rfl
    refine exists_congr fun u => and_congr_right fun hut => ?_
    rw [hother u hut]
  · intro u c hc hheads
    by_cases hut : u = t
    · rw [hut, hself] at hc
      rcases h.heads c hheads with hh | ⟨-, hq⟩
      · rcases h.roots c hc with hold | hfree
        · exact hinv.own t c hold hh
        · exact hfree (.inl hh)
      · exact hq hc
    · rw [hother u hut] at hc
      rcases h.heads c hheads with hh | ⟨hold, -⟩
      · exact hinv.own u c hc hh
      · exact hut (hinv.apart u t c hc hold)
  · intro u v c hu hv
    by_cases hut : u = t
    · by_cases hvt : v = t
      · rw [hut, hvt]
      · rw [hut, hself] at hu
        rw [hother v hvt] at hv
        exact absurd hv (hnew c hu v hvt)
    · rw [hother u hut] at hu
      by_cases hvt : v = t
      · rw [hvt, hself] at hv
        exact absurd hu (hnew c hv u hut)
      · rw [hother v hvt] at hv
        exact hinv.apart u v c hu hv
  · intro u
    by_cases hut : u = t
    · rw [hut, hself]
      exact h.distinct
    · rw [hother u hut]
      exact hinv.distinct u
  · intro u
    by_cases hut : u = t
    · rw [hut, hself]
      exact h.ok
    · rw [hother u hut]
      refine (hinv.points u).frame hinv.wf.toGeometry h.length h.files (h.others u hut) ?_
      intro c hc hmem
      exact (h.returned c hmem).resolve_right fun ht => hut (hinv.apart u t c hc ht)

end Move

/-! ## Steps that do not write the table -/

section Control

variable {s s' : state} {t clst new_clst : ℕ} {k : call} {r : ret} {q : point}

/-- **A step that leaves the table alone** passes the chains of the thread on. -/
theorem Inv.move_control (hinv : Inv s) (hmoved : s'.point = Function.update s.point t q)
    (hwf : s'.fs.Wf) (hfat : s'.fs.fat = s.fs.fat) (hlen : s'.fs.fat_length = s.fs.fat_length)
    (hsub : ∀ c ∈ q.roots, c ∈ (s.point t).roots) (hdist : q.roots.Nodup)
    (hfiles : ∀ c ∈ s.heads, c ∈ s'.heads)
    (hheads : ∀ c ∈ s'.heads, c ∈ s.heads ∨ c ∈ (s.point t).roots ∧ c ∉ q.roots)
    (hall : ∀ c ∈ (s.point t).roots, c ∈ s'.heads ∨ c ∈ q.roots)
    (hret : ∀ c ∈ s'.returned, c ∈ s.returned ∨ c ∈ (s.point t).roots)
    (honce : s'.returned.Nodup) (hok : PointOk s' q) : Inv s' := by
  refine hinv.move (t := t) (q := q) ?_
  have hcover : Cover s'.fs fun h => (h ∈ s'.heads ∨ ∃ u ≠ t, h ∈ (s.point u).roots)
      ∨ h ∈ q.roots := by
    refine (hinv.cover.congr hlen hfat).roots fun h => ?_
    rw [root_iff (t := t)]
    unfold Others
    refine ⟨?_, ?_⟩
    · rintro ((hh | hu) | hq)
      · exact (hheads h hh).imp .inl And.left
      · exact .inl (.inr hu)
      · exact .inr (hsub h hq)
    · rintro ((hh | hu) | ht)
      · exact .inl (.inl (hfiles h hh))
      · exact .inl (.inr hu)
      · exact (hall h ht).imp .inl id
  exact { moved := hmoved
          wf := hwf
          zero := by rw [hfat, hinv.zero]
          length := hlen
          cover := hcover
          roots := fun c hc => .inl (hsub c hc)
          distinct := hdist
          heads := hheads
          files := fun h hh => ⟨hfiles h hh, fun x hx => hx.congr hlen hfat⟩
          others := fun u _ c _ l hch => hch.congr hlen fun _ _ => by rw [hfat]
          returned := hret
          once := honce
          claimed := by
            intro c hc
            rw [hfat]
            rcases hret c hc with hold | hroot
            · exact hinv.claimed c hold
            · exact (hinv.cover.start (.inr ⟨t, hroot⟩)).used
          ok := hok }

theorem PointOk.same (hok : PointOk s q) (hinv : Inv s) (hfat : s'.fs.fat = s.fs.fat)
    (hlen : s'.fs.fat_length = s.fs.fat_length) (hheads : s'.heads = s.heads)
    (hret : s'.returned = s.returned) : PointOk s' q := by
  refine hok.frame hinv.wf.toGeometry hlen ?_ ?_ ?_
  · exact fun h hh => ⟨hheads ▸ hh, fun x hx => hx.congr hlen hfat⟩
  · exact fun c _ l hch => hch.congr hlen fun _ _ => by rw [hfat]
  · exact fun c _ hc => hret ▸ hc

/-- **A step that only moves the thread.** -/
theorem Inv.move_same (hinv : Inv s) (hmoved : s'.point = Function.update s.point t q)
    (hwf : s'.fs.Wf) (hfat : s'.fs.fat = s.fs.fat) (hlen : s'.fs.fat_length = s.fs.fat_length)
    (hheads : s'.heads = s.heads) (hret : s'.returned = s.returned)
    (hroots : q.roots = (s.point t).roots) (hok : PointOk s q) : Inv s' := by
  refine hinv.move_control hmoved hwf hfat hlen ?_ ?_ ?_ ?_ ?_ ?_ ?_
    (hok.same hinv hfat hlen hheads hret)
  · exact fun c hc => hroots ▸ hc
  · exact hroots ▸ hinv.distinct t
  · exact fun c hc => hheads ▸ hc
  · exact fun c hc => .inl (hheads ▸ hc)
  · exact fun c hc => .inr (hroots ▸ hc)
  · exact fun c hc => .inl (hret ▸ hc)
  · exact hret ▸ hinv.once

/-- The thread goes on, and nothing else. -/
theorem Inv.goto (hinv : Inv s) (hroots : q.roots = (s.point t).roots) (hok : PointOk s q) :
    Inv (s.goto t q) :=
  hinv.move_same rfl hinv.wf rfl rfl rfl rfl hroots hok

theorem begin_request_inv (hinv : Inv s) (hroots : r.roots = (s.point t).roots)
    (hanchor : Anchored s clst r) (h : begin_request s t k r clst = some s') : Inv s' := by
  unfold begin_request at h
  split_ifs at h with hclst
  cases h
  refine hinv.goto ?_ ⟨hanchor, ?_⟩
  · rw [← hroots]
    exact List.append_nil _
  · have hlast := hinv.wf.last_ge
    change 2 ≤ s.fs.last_clst + 1
    omega

theorem OnChain.ne_end {fs : fat_fs} {h c : ℕ} (hg : fs.Geometry) (hc : OnChain fs h c) :
    h ≠ 0 ∧ h ≠ EOChain := (allocation.mem_chain_at.mp (OnChain.mem_chain_at hg hc)).2

/-- The search has found nothing. -/
theorem end_request_full_inv (hinv : Inv s) (hroots : r.roots = (s.point t).roots)
    (hanchor : Anchored s clst r) : Inv (end_request s t k r 0) := by
  cases r with
  | head => exact hinv.goto hroots trivial
  | tail => exact hinv.goto hroots trivial
  | first cnt => exact hinv.goto hroots ⟨by decide, .inl rfl⟩
  | next start cnt => exact hinv.goto hroots ⟨(OnChain.ne_end hinv.wf.toGeometry hanchor).2, .inl rfl⟩

theorem Held.range (h : Held s new_clst) : new_clst < s.fs.fat_length :=
  (h.chain.range new_clst (List.mem_singleton_self _)).2

theorem Held.ne_zero (h : Held s new_clst) : new_clst ≠ 0 := by
  have htwo := h.two_le
  omega

theorem set_last_wf {fs : fat_fs} (hwf : fs.Wf) {c : ℕ} (h2 : 2 ≤ c) (hlt : c < fs.fat_length) :
    ({ fs with last_clst := c } : fat_fs).Wf :=
  ⟨⟨hwf.two_lt, hwf.length_le, hwf.start_pos, hwf.no_wrap⟩, h2, hlt⟩

/-- **The cluster starts a chain**: it is returned as it was claimed. -/
theorem end_request_start_inv (hinv : Inv s) (hpt : s.point t = .request k r 0 (.hint new_clst)) :
    Inv (end_request (s.set_fs { s.fs with last_clst := new_clst }) t k r new_clst) := by
  have hg := hinv.wf.toGeometry
  have hok : PointOk s (.request k r 0 (.hint new_clst)) := hpt ▸ hinv.points t
  obtain ⟨hanchor, hheld⟩ : Anchored s 0 r ∧ Held s new_clst := hok
  have hwf := set_last_wf hinv.wf hheld.two_le hheld.range
  have hroot : new_clst ∈ (s.point t).roots := by
    rw [hpt]
    simp [point.roots, stage.roots]
  have honce : (new_clst :: s.returned).Nodup := List.nodup_cons.mpr ⟨hheld.fresh, hinv.once⟩
  have hret : ∀ c ∈ new_clst :: s.returned, c ∈ s.returned ∨ c ∈ (s.point t).roots := by
    intro c hc
    rcases List.mem_cons.mp hc with rfl | hold
    · exact .inr hroot
    · exact .inl hold
  have hmem : new_clst ∈ chain_at new_clst :=
    OnChain.mem_chain_at hg ⟨_, hheld.chain, List.mem_singleton_self _⟩
  cases r with
  | head =>
      have hown : (s.point t).roots = [new_clst] := by
        rw [hpt]
        rfl
      simp only [end_request, state.hand_out, state.publish, if_neg hheld.ne_zero]
      refine hinv.move_control (t := t) (q := .body k) rfl hwf rfl rfl (fun c hc => by cases hc)
        List.nodup_nil (fun c hc => List.mem_cons_of_mem _ hc) ?_ ?_ hret honce trivial
      · intro c hc
        rcases List.mem_cons.mp hc with rfl | hold
        · exact .inr ⟨hroot, List.not_mem_nil⟩
        · exact .inl hold
      · intro c hc
        rw [hown] at hc
        exact .inl (List.mem_singleton.mp hc ▸ List.mem_cons_self)
  | first cnt =>
      have hown : (s.point t).roots = [new_clst] := by
        rw [hpt]
        rfl
      have hsub : ∀ c, c ∈ chain_at new_clst ↔ c ∈ (s.point t).roots := by
        intro c
        rw [hown, List.mem_singleton, mem_chain_at]
        exact and_iff_left (mem_chain_at.mp hmem).2
      simp only [end_request, state.hand_out, if_neg hheld.ne_zero]
      refine hinv.move_control (t := t) (q := .loop k new_clst new_clst cnt) rfl hwf rfl rfl
        (fun c hc => (hsub c).mp hc) chain_at_nodup (fun c hc => hc) (fun c hc => .inl hc)
        (fun c hc => .inr ((hsub c).mpr hc)) hret honce ?_
      refine ⟨(mem_chain_at.mp hmem).2.2, .inr ?_⟩
      exact ⟨[new_clst], hheld.chain.congr rfl fun _ _ => rfl, List.mem_singleton_self _⟩
  | tail =>
      obtain ⟨h, -, hc⟩ := hanchor
      exact absurd hc.range.1 (by decide)
  | next start cnt => exact absurd (OnChain.range hanchor).1 (by decide)

/-- **The test of the loop of `fat_allocate`.** -/
theorem loop_step_inv {start prev cnt : ℕ} (hinv : Inv s) (hpt : s.point t = .loop k start prev cnt)
    (h : loop_step s t k start prev cnt = some s') : Inv s' := by
  have hok : PointOk s (.loop k start prev cnt) := hpt ▸ hinv.points t
  have hown : (s.point t).roots = chain_at start := by
    rw [hpt]
    rfl
  unfold loop_step at h
  split_ifs at h with hmore hleft hstart
  · exact begin_request_inv (r := .next start (cnt - 1)) hinv hown.symm
      (hok.2.resolve_left hmore.1) h
  · cases h
    exact hinv.goto hown.symm trivial
  · cases h
    unfold state.publish
    by_cases hzero : start = 0
    · rw [if_pos hzero]
      refine hinv.goto ?_ trivial
      rw [hown, hzero]
      rfl
    · rw [if_neg hzero]
      refine hinv.move_control (t := t) (q := .body k) rfl hinv.wf rfl rfl (fun c hc => by cases hc)
        List.nodup_nil (fun c hc => List.mem_cons_of_mem _ hc) ?_ ?_ (fun c hc => .inl hc)
        hinv.once trivial
      · intro c hc
        rcases List.mem_cons.mp hc with rfl | hold
        · exact .inr ⟨hown ▸ mem_chain_at.mpr ⟨rfl, hzero, hok.1⟩, List.not_mem_nil⟩
        · exact .inl hold
      · intro c hc
        rw [hown] at hc
        exact .inl ((mem_chain_at.mp hc).1 ▸ List.mem_cons_self)

end Control

/-! ## Steps that write the table -/

section Writes

variable {s s' : state} {t clst new_clst : ℕ} {k : call} {r : ret} {q : point}

theorem put_wf {fs : fat_fs} (hwf : fs.Wf) {c v : ℕ} : (fs.put c v).Wf :=
  ⟨put_geometry hwf.toGeometry, hwf.last_ge, hwf.last_lt⟩

/-- **A free cluster is claimed.** -/
theorem claim_inv (hinv : Inv s) (hpt : s.point t = .request k r clst (.claim new_clst))
    (hfree : s.fs.fat new_clst = 0) :
    Inv ((s.set_fs (s.fs.put new_clst EOChain)).goto t (.request k r clst (.hint new_clst))) := by
  have hg := hinv.wf.toGeometry
  have hok : PointOk s (.request k r clst (.claim new_clst)) := hpt ▸ hinv.points t
  obtain ⟨hanchor, htwo, hlt⟩ : Anchored s clst r ∧ 2 ≤ new_clst ∧ new_clst < s.fs.fat_length := hok
  have hown : (s.point t).roots = r.roots := by
    rw [hpt]
    exact List.append_nil _
  have hnew : ¬ s.Root new_clst := fun hroot => (hinv.cover.start hroot).used hfree
  obtain ⟨hcover, hch, hkept⟩ := hinv.cover.claim hg hfree (by omega) hlt
  have hroots : ∀ c, c ∈ r.roots ++ [new_clst] ↔ c ∈ (s.point t).roots ∨ c = new_clst := by
    intro c
    rw [hown, List.mem_append, List.mem_singleton]
  refine hinv.move (t := t) (q := .request k r clst (.hint new_clst)) ?_
  exact { moved := rfl
          wf := put_wf hinv.wf
          zero := (put_of_ne (by omega)).trans hinv.zero
          length := rfl
          cover := by
            refine hcover.roots fun h => ?_
            change Others s t h ∨ h ∈ r.roots ++ [new_clst] ↔ s.Root h ∨ h = new_clst
            rw [root_iff (t := t), or_assoc, hroots]
          roots := by
            intro c hc
            refine ((hroots c).mp hc).imp_right ?_
            rintro rfl
            exact hnew
          distinct := by
            refine List.nodup_append.mpr ⟨hown ▸ hinv.distinct t, List.nodup_singleton _, ?_⟩
            rintro c hc c' hc' rfl
            rw [List.mem_singleton.mp hc', ← hown] at hc
            exact hnew (.inr ⟨t, hc⟩)
          heads := fun c hc => .inl hc
          files := fun h hh => ⟨hh, fun x => hkept h x (.inl hh)⟩
          others := fun u _ c _ l hl => hl.put (hl.notMem_of_free hfree)
          returned := fun c hc => .inl hc
          once := hinv.once
          claimed := by
            intro c hc
            change (s.fs.put new_clst EOChain).fat c ≠ 0
            by_cases hcn : c = new_clst
            · rw [hcn, put_self]
              decide
            · rw [put_of_ne hcn]
              exact hinv.claimed c hc
          ok := by
            refine ⟨?_, htwo, hch, fun hc => hinv.claimed _ hc hfree⟩
            cases r with
            | head | first => exact hanchor
            | tail =>
                obtain ⟨h, hh, hc⟩ := hanchor
                exact ⟨h, hh, hkept h clst (.inl hh) hc⟩
            | next start cnt =>
                refine hkept start clst (.inr ⟨t, ?_⟩) hanchor
                rw [hown]
                exact OnChain.mem_chain_at hg hanchor }

/-- **A claimed cluster is linked** behind the last one of chain `h`, and returned. -/
theorem link_inv {h : ℕ} (hinv : Inv s) (hpt : s.point t = .request k r clst (.link new_clst))
    (hgood : s.fs.fat clst = EOChain) (hh : h ∈ s.heads ∨ h ∈ r.roots) (hon : OnChain s.fs h clst)
    (hq : q.roots = r.roots)
    (hok' : ∀ s'' : state, OnChain s''.fs h new_clst → PointOk s'' q) :
    Inv (((s.set_fs (s.fs.put clst new_clst)).hand_out new_clst).goto t q) := by
  have hg := hinv.wf.toGeometry
  have hok : PointOk s (.request k r clst (.link new_clst)) := hpt ▸ hinv.points t
  obtain ⟨-, hheld, hclst⟩ : Anchored s clst r ∧ Held s new_clst ∧ clst ≠ 0 := hok
  have hown : (s.point t).roots = r.roots ++ [new_clst] := by
    rw [hpt]
    rfl
  have hnewroot : new_clst ∈ (s.point t).roots := by
    rw [hown]
    exact List.mem_append_right _ (List.mem_singleton_self _)
  have hdist : (r.roots ++ [new_clst]).Nodup := hown ▸ hinv.distinct t
  have hroot : s.Root h := hh.imp_right fun hr => ⟨t, hown ▸ List.mem_append_left _ hr⟩
  have hnr : new_clst ∉ r.roots := fun hr =>
    (List.nodup_append.mp hdist).2.2 new_clst hr new_clst (List.mem_singleton_self _) rfl
  have hne : h ≠ new_clst := by
    rintro rfl
    exact hh.elim (hinv.own t h hnewroot) hnr
  obtain ⟨hcover, hnew, hkept⟩ := hinv.cover.link hg hroot (.inr ⟨t, hnewroot⟩) hne hon hgood
  have hnotOthers : ¬ Others s t new_clst := hinv.not_others hnewroot
  simp only [state.hand_out, if_neg hheld.ne_zero]
  refine hinv.move (t := t) (q := q) ?_
  exact { moved := rfl
          wf := put_wf hinv.wf
          zero := (put_of_ne hclst.symm).trans hinv.zero
          length := rfl
          cover := by
            refine hcover.roots fun x => ?_
            change Others s t x ∨ x ∈ q.roots ↔ s.Root x ∧ x ≠ new_clst
            rw [root_iff (t := t), hown, hq, List.mem_append, List.mem_singleton]
            refine ⟨?_, ?_⟩
            · rintro (ho | hr)
              · exact ⟨.inl ho, fun he => hnotOthers (he ▸ ho)⟩
              · exact ⟨.inr (.inl hr), fun he => hnr (he ▸ hr)⟩
            · rintro ⟨ho | hr | he, hxn⟩
              · exact .inl ho
              · exact .inr hr
              · exact absurd he hxn
          roots := fun c hc => .inl (hown ▸ List.mem_append_left _ (hq ▸ hc))
          distinct := hq ▸ (List.nodup_append.mp hdist).1
          heads := fun c hc => .inl hc
          files := by
            refine fun x hx => ⟨hx, fun y => hkept x y (.inl hx) ?_⟩
            rintro rfl
            exact hinv.own t x hnewroot hx
          others := by
            -- The chain that is written is a file's or thread `t`'s.
            intro u hut c hc l hl
            refine hl.put fun hmem => ?_
            have hch : c = h := hinv.cover.apart c h clst (.inr ⟨u, hc⟩) hroot ⟨l, hl, hmem⟩ hon
            rw [hch] at hc
            rcases hh with hh | hr
            · exact hinv.own u h hc hh
            · exact hut (hinv.apart u t h hc (hown ▸ List.mem_append_left _ hr))
          returned := by
            intro c hc
            rcases List.mem_cons.mp hc with rfl | hold
            · exact .inr hnewroot
            · exact .inl hold
          once := List.nodup_cons.mpr ⟨hheld.fresh, hinv.once⟩
          claimed := by
            intro c hc
            change (s.fs.put clst new_clst).fat c ≠ 0
            by_cases hcc : c = clst
            · rw [hcc, put_self]
              exact hheld.ne_zero
            rw [put_of_ne hcc]
            rcases List.mem_cons.mp hc with rfl | hold
            · exact OnChain.used ⟨_, hheld.chain, List.mem_singleton_self _⟩
            · exact hinv.claimed c hold
          ok := hok' _ hnew }

/-- The next cluster of a chain is none of the roots. -/
theorem next_not_root {fs : fat_fs} {root : ℕ → Prop} {c : ℕ} (hg : fs.Geometry)
    (hcov : Cover fs root) (hc : root c) (hend : fs.fat c ≠ EOChain) : ¬ root (fs.fat c) := by
  intro hnext
  have hsame := hcov.apart _ c (fs.fat c) hnext hc (hcov.start hnext) ((hcov.start hc).next hend)
  obtain ⟨l, hne, hch⟩ := hcov.chain c hc
  cases l with
  | nil => exact hne rfl
  | cons x l =>
      obtain rfl : c = x := hch.path.1
      have hpath : Path fs.fat c l EOChain := by
        have htail := hch.path.2
        rwa [hsame] at htail
      have hmem : c ∈ l := by
        apply hpath.start_mem
        rintro rfl
        exact hend (hsame.trans hpath)
      exact (List.nodup_cons.mp (hch.nodup hg)).1 hmem

/-- **The first cluster of a chain that is given up is freed.** -/
theorem free_inv {fs' : fat_fs} (hinv : Inv s) (hpt : s.point t = .remove k clst) (hzero : clst ≠ 0)
    (hend : clst ≠ EOChain) (hwf : fs'.Wf) (hfat : fs'.fat = (s.fs.put clst 0).fat)
    (hlen : fs'.fat_length = s.fs.fat_length) :
    Inv (({ s.set_fs fs' with returned := s.returned.filter (· ≠ clst) }).goto t
      (.remove k (s.fs.fat clst))) := by
  have hg := hinv.wf.toGeometry
  have hown : (s.point t).roots = chain_at clst := by
    rw [hpt]
    rfl
  have hmine : clst ∈ (s.point t).roots := hown ▸ mem_chain_at.mpr ⟨rfl, hzero, hend⟩
  have hroot : s.Root clst := .inr ⟨t, hmine⟩
  have hnext : s.fs.fat clst ≠ 0 := (hinv.cover.start hroot).used
  obtain ⟨hcover, hkept⟩ := hinv.cover.free hg hroot
  have hnotOthers : ¬ Others s t clst := hinv.not_others hmine
  refine hinv.move (t := t) (q := .remove k (s.fs.fat clst)) ?_
  exact { moved := rfl
          wf := hwf
          zero := by
            change fs'.fat 0 = 0
            rw [hfat, put_of_ne (Ne.symm hzero), hinv.zero]
          length := hlen
          cover := by
            refine Cover.roots (Cover.congr hcover hlen hfat) fun x => ?_
            change Others s t x ∨ x ∈ chain_at (s.fs.fat clst) ↔ _
            rw [root_iff (t := t), hown, mem_chain_at, mem_chain_at]
            refine ⟨?_, ?_⟩
            · rintro (ho | ⟨rfl, -, hxend⟩)
              · exact .inl ⟨.inl ho, fun he => hnotOthers (he ▸ ho)⟩
              · exact .inr ⟨rfl, hxend⟩
            · rintro (⟨ho | hx, hxc⟩ | ⟨rfl, hxend⟩)
              · exact .inl ho
              · exact absurd hx.1 hxc
              · exact .inr ⟨rfl, hnext, hxend⟩
          roots := by
            intro c hc
            obtain ⟨rfl, -, hcend⟩ := mem_chain_at.mp hc
            exact .inr (next_not_root hg hinv.cover hroot hcend)
          distinct := chain_at_nodup
          heads := fun c hc => .inl hc
          files := by
            refine fun x hx => ⟨hx, fun y hy => ?_⟩
            have hxc : x ≠ clst := by
              rintro rfl
              exact hinv.own t x hmine hx
            have hlen' : fs'.fat_length = (s.fs.put clst 0).fat_length := hlen
            exact OnChain.congr hlen' hfat (hkept x y (.inl hx) hxc hy)
          others := by
            intro u hut c hc l hl
            have hcl : clst ∉ l := by
              intro hmem
              have hch := hinv.cover.apart c clst clst (.inr ⟨u, hc⟩) hroot ⟨l, hl, hmem⟩
                (hinv.cover.start hroot)
              exact hut (hinv.apart u t c hc (hch ▸ hmine))
            exact (hl.put hcl).congr hlen fun j _ => congrFun hfat j
          returned := fun c hc => .inl (List.mem_filter.mp hc).1
          once := hinv.once.filter _
          claimed := by
            intro c hc
            obtain ⟨hmem, hcc⟩ := List.mem_filter.mp hc
            change fs'.fat c ≠ 0
            rw [hfat, put_of_ne (of_decide_eq_true hcc)]
            exact hinv.claimed c hmem
          ok := trivial }

/-- **One pass of the removal.** -/
theorem remove_step_inv (hinv : Inv s) (hpt : s.point t = .remove k clst)
    (h : remove_step s t k clst = some s') : Inv s' := by
  have hown : (s.point t).roots = chain_at clst := by
    rw [hpt]
    rfl
  unfold remove_step at h
  by_cases hend : clst = EOChain
  · rw [if_pos hend] at h
    cases h
    refine hinv.goto ?_ trivial
    rw [hown, hend]
    rfl
  rw [if_neg hend] at h
  obtain ⟨next, hget, h⟩ := Option.bind_eq_some_iff.mp h
  obtain ⟨fs, hput, h⟩ := Option.bind_eq_some_iff.mp h
  rw [Outcome.toOption_eq_some] at hget hput
  unfold fat_get at hget
  unfold fat_put at hput
  split_ifs at hget hput with hlt
  obtain rfl := Outcome.ok.inj hget
  obtain rfl := Outcome.ok.inj hput
  obtain rfl := Option.some.inj h
  by_cases hzero : clst = 0
  · -- The chain of cluster 0 has no end, and nothing changes on the way.
    subst hzero
    have hlast : s.fs.last_clst ≠ 0 := by
      have htwo := hinv.wf.last_ge
      omega
    have hfat : Function.update s.fs.fat 0 0 = s.fs.fat := by
      have hself := Function.update_eq_self 0 s.fs.fat
      rwa [hinv.zero] at hself
    have hret : s.returned.filter (· ≠ 0) = s.returned := by
      apply List.filter_eq_self.mpr
      intro c hc
      refine decide_eq_true ?_
      rintro rfl
      exact hinv.claimed 0 hc hinv.zero
    refine hinv.move_same (t := t) (q := .remove k (s.fs.fat 0)) rfl ?_ ?_ ?_ rfl hret ?_ trivial
    · simp only [state.goto, state.set_fs, if_neg hlast]
      exact put_wf hinv.wf
    · simp only [state.goto, state.set_fs, if_neg hlast, hfat]
    · simp only [state.goto, state.set_fs, if_neg hlast]
    · rw [hown, hinv.zero]
      rfl
  · -- The hint is set back if it was the cluster that goes.
    refine free_inv hinv hpt hzero hend ?_ ?_ ?_
    · split_ifs
      · exact set_last_wf (put_wf hinv.wf) le_rfl hinv.wf.two_lt
      · exact put_wf hinv.wf
    · split_ifs
      · rfl
      · rfl
    · split_ifs
      · rfl
      · rfl

end Writes

/-! ## Runs -/

section Run

variable {s s' : state} {t : ℕ} {k : call} {r : ret} {clst : ℕ}

/-- **One access of `fat_create_chain`.** -/
theorem request_step_inv {g : stage} (hinv : Inv s) (hpt : s.point t = .request k r clst g)
    (hgood : Good s t .go) (h : request_step s t k r clst g = some s') : Inv s' := by
  have hg := hinv.wf.toGeometry
  have hok : PointOk s (.request k r clst g) := hpt ▸ hinv.points t
  have hgoto : ∀ {clst' : ℕ} {g' : stage}, g'.roots = g.roots → Anchored s clst' r →
      StageOk s clst' g' → Inv (s.goto t (.request k r clst' g')) := by
    intro clst' g' hroots hanchor hstage
    refine hinv.goto ?_ ⟨hanchor, hstage⟩
    rw [hpt]
    exact congrArg (r.roots ++ ·) hroots
  have hown : r.roots ++ g.roots = (s.point t).roots := by
    rw [hpt]
    rfl
  obtain ⟨hanchor, hstage⟩ : Anchored s clst r ∧ StageOk s clst g := hok
  cases g with
  | scan find_end finding_clst =>
      simp only [request_step] at h
      by_cases hend : finding_clst = find_end
      · rw [if_pos hend] at h
        cases h
        exact end_request_full_inv hinv ((List.append_nil _).symm.trans hown) hanchor
      rw [if_neg hend] at h
      obtain ⟨v, hget, h⟩ := Option.bind_eq_some_iff.mp h
      rw [Outcome.toOption_eq_some] at hget
      unfold fat_get at hget
      split_ifs at hget with hlt
      split_ifs at h with hfree hwrap
      · cases h
        exact hgoto rfl hanchor ⟨hstage, hlt⟩
      · cases h
        exact hgoto rfl hanchor (show 2 ≤ 2 from le_rfl)
      · cases h
        exact hgoto rfl hanchor (show 2 ≤ finding_clst + 1 from Nat.le_succ_of_le hstage)
  | claim new_clst =>
      obtain ⟨fs, hput, h⟩ := Option.bind_eq_some_iff.mp h
      rw [Outcome.toOption_eq_some, fat_put_ok hstage.2] at hput
      obtain rfl := Outcome.ok.inj hput
      cases h
      -- Nobody has claimed it since the search found it.
      have hfree : s.fs.fat new_clst = 0 := by
        have hcond := hgood
        simp only [Good, hpt] at hcond
        exact hcond
      exact claim_inv hinv hpt hfree
  | hint new_clst =>
      simp only [request_step] at h
      have hheld : Held s new_clst := hstage
      by_cases hzero : clst = 0
      · rw [if_pos hzero] at h
        cases h
        subst hzero
        exact end_request_start_inv hinv hpt
      · rw [if_neg hzero] at h
        cases h
        refine hinv.move_same (t := t) (q := .request k r clst (.walk new_clst)) rfl
          (set_last_wf hinv.wf hheld.two_le hheld.range) rfl rfl rfl rfl ?_ ⟨hanchor, hheld, hzero⟩
        rw [hpt]
        rfl
  | walk new_clst =>
      simp only [request_step] at h
      by_cases hrootdir : clst = ROOT_DIR_CLUSTER
      · rw [if_pos hrootdir] at h
        cases h
        exact hgoto rfl hanchor hstage
      rw [if_neg hrootdir] at h
      obtain ⟨v, hget, h⟩ := Option.bind_eq_some_iff.mp h
      rw [Outcome.toOption_eq_some] at hget
      unfold fat_get at hget
      split_ifs at hget with hlt
      obtain rfl := Outcome.ok.inj hget
      split_ifs at h with hend
      · cases h
        exact hgoto rfl hanchor hstage
      · cases h
        -- The walk stays on the chain.
        have hon : ∀ x, OnChain s.fs x clst → OnChain s.fs x (s.fs.fat clst) :=
          fun x hx => hx.next hend
        have hanchor' : Anchored s (s.fs.fat clst) r := by
          cases r with
          | head | first => exact absurd hanchor hstage.2
          | tail =>
              obtain ⟨x, hx, hc⟩ := hanchor
              exact ⟨x, hx, hon x hc⟩
          | next start cnt => exact hon start hanchor
        have hused : s.fs.fat clst ≠ 0 := by
          cases r with
          | head | first => exact absurd hanchor hstage.2
          | tail =>
              obtain ⟨x, -, hc⟩ := hanchor
              exact hc.used
          | next start cnt => exact OnChain.used hanchor
        exact hgoto rfl hanchor' ⟨hstage.1, hused⟩
  | link new_clst =>
      obtain ⟨fs, hput, h⟩ := Option.bind_eq_some_iff.mp h
      have hcond : s.fs.fat clst = EOChain := by
        have hgood' := hgood
        simp only [Good, hpt] at hgood'
        exact hgood'
      rw [Outcome.toOption_eq_some] at hput
      unfold fat_put at hput
      split_ifs at hput with hlt
      obtain rfl := Outcome.ok.inj hput
      cases h
      cases r with
      | head | first => exact absurd hanchor hstage.2
      | tail =>
          obtain ⟨x, hx, hc⟩ := hanchor
          exact link_inv (q := .body k) hinv hpt hcond (.inl hx) hc rfl fun _ _ => trivial
      | next start cnt =>
          refine link_inv (q := .loop k start new_clst cnt) hinv hpt hcond (.inr ?_) hanchor rfl ?_
          · exact OnChain.mem_chain_at hg hanchor
          · exact fun _ hnew => ⟨(OnChain.ne_end hg hanchor).2, .inr hnew⟩

/-- **One event** keeps the invariant. -/
theorem step_inv {e : event} (hinv : Inv s) (hgood : Good s t e)
    (h : step s t e = some s') : Inv s' := by
  cases e with
  | enter k =>
      simp only [step] at h
      split at h
      case h_2 => cases h
      rename_i hpt
      have hroots : (point.body k).roots = (s.point t).roots := by
        rw [hpt]
        rfl
      split_ifs at h with hlocks hfree
      · cases h
        exact hinv.move_same (q := .body k) rfl hinv.wf rfl rfl rfl rfl hroots trivial
      · cases h
        exact hinv.goto hroots trivial
  | leave =>
      simp only [step] at h
      split at h
      case h_2 => cases h
      rename_i k hpt
      cases h
      refine hinv.move_same (t := t) (q := .user) rfl hinv.wf rfl rfl rfl rfl ?_ trivial
      rw [hpt]
      rfl
  | create_chain clst =>
      simp only [step] at h
      split at h
      case h_2 => cases h
      rename_i k hpt
      split_ifs at h with hzero hhead
      · refine begin_request_inv (r := .head) hinv ?_ rfl h
        rw [hpt]
        rfl
      · refine begin_request_inv (r := .tail) hinv ?_ ⟨clst, hhead, hinv.cover.start (.inl hhead)⟩ h
        rw [hpt]
        rfl
  | allocate cnt =>
      simp only [step] at h
      split at h
      case h_2 => cases h
      rename_i k hpt
      split_ifs at h with hzero
      · cases h
        exact hinv
      · refine begin_request_inv (r := .first (cnt - 1)) hinv ?_ rfl h
        rw [hpt]
        rfl
  | go =>
      simp only [step] at h
      split at h
      · rename_i hpt
        exact loop_step_inv hinv hpt h
      · rename_i hpt
        exact request_step_inv hinv hpt hgood h
      · rename_i hpt
        exact remove_step_inv hinv hpt h
      · cases h

theorem run_inv {es : List (ℕ × event)} (hinv : Inv s) (hgood : GoodRun s es)
    (h : run s es = some s') : Inv s' := by
  induction es generalizing s with
  | nil =>
      cases h
      exact hinv
  | cons te es ih =>
      obtain ⟨s₁, hstep, h⟩ := Option.bind_eq_some_iff.mp h
      exact ih (step_inv hinv hgood.1 hstep) (hgood.2 s₁ hstep) h

theorem Start.inv (h : Start s) : Inv s := by
  have hnone : ∀ t, (s.point t).roots = [] := fun t => by rw [h.user t]; rfl
  refine ⟨h.wf, h.zero, ?_, ?_, ?_, ?_, ?_, ?_, ?_⟩
  · refine h.cover.roots fun c => ?_
    unfold state.Root
    simp only [hnone, List.not_mem_nil, exists_false, or_false]
  · intro t c hc
    rw [hnone] at hc
    cases hc
  · intro t u c hc
    rw [hnone] at hc
    cases hc
  · intro t
    rw [hnone]
    exact List.nodup_nil
  · intro t
    rw [h.user t]
    trivial
  · rw [h.returned]
    exact List.nodup_nil
  · rw [h.returned]
    exact fun c hc => by cases hc

theorem Inv.allocated (hinv : Inv s) : Allocated s :=
  ⟨hinv.once, hinv.claimed, fun _ h1 hlt hused => hinv.cover.existsUnique h1 hlt hused⟩

/-- **No cluster is allocated twice** in a run whose events are all good. -/
theorem allocated_along {es : List (ℕ × event)} (hstart : Start s) (hgood : GoodRun s es)
    (h : run s es = some s') : Allocated s' :=
  (run_inv hstart.inv hgood h).allocated

end Run

/-! ## A formatted disk -/

/-- A table of 64 entries, with the root directory in cluster 1. -/
def formatted : state where
  fs :=
    { bs := ⟨FAT_MAGIC, SECTORS_PER_CLUSTER, 64, 1, 1, ROOT_DIR_CLUSTER⟩
      fat := fun c => if c = ROOT_DIR_CLUSTER then EOChain else 0
      fat_length := 64
      data_start := 2
      last_clst := ROOT_DIR_CLUSTER + 1 }
  lock := none
  point _ := .user
  heads := [ROOT_DIR_CLUSTER]
  returned := []

theorem formatted_start : Start formatted := by
  have hch : Chain formatted.fs ROOT_DIR_CLUSTER [ROOT_DIR_CLUSTER] :=
    ⟨⟨rfl, rfl⟩, by simp [ROOT_DIR_CLUSTER, formatted]⟩
  refine ⟨⟨⟨?_, ?_, ?_, ?_⟩, ?_, ?_⟩, rfl, ⟨?_, ?_, ?_⟩, fun _ => rfl, rfl, rfl⟩
  any_goals decide
  · intro h hh
    rw [List.mem_singleton.mp hh]
    exact ⟨_, by simp, hch⟩
  · intro h h' c hh hh' _ _
    rw [List.mem_singleton.mp hh, List.mem_singleton.mp hh']
  · intro c _ _ hused
    have hc : c = ROOT_DIR_CLUSTER := by
      by_contra hne
      exact hused (if_neg hne)
    rw [hc]
    exact ⟨ROOT_DIR_CLUSTER, List.mem_singleton_self _, _, hch, List.mem_singleton_self _⟩

theorem GoodRun.cons {s s₁ : state} {t : ℕ} {e : event} {es : List (ℕ × event)} (hgood : Good s t e)
    (hstep : step s t e = some s₁) (h : GoodRun s₁ es) : GoodRun s ((t, e) :: es) := by
  refine ⟨hgood, fun s' hs' => ?_⟩
  rwa [Option.some.inj (hs'.symm.trans hstep)]

/-- `sys_create` starts to look for a cluster when `sys_mkdir` has claimed one. -/
def one_after_the_other : List (ℕ × event) :=
  [(1, .enter .mkdir), (1, .create_chain 0), (1, .go), (1, .go), (2, .enter .create),
    (2, .allocate 1), (2, .go), (1, .go), (2, .go), (2, .go), (2, .go), (2, .go)]

/-- They get different clusters. -/
theorem one_after_the_other_allocated : Start formatted ∧ GoodRun formatted one_after_the_other
    ∧ ∃ s, run formatted one_after_the_other = some s ∧ Allocated s := by
  have hgood : GoodRun formatted one_after_the_other := by
    unfold one_after_the_other
    exact .cons trivial rfl (.cons trivial rfl (.cons trivial rfl (.cons rfl rfl (.cons trivial rfl
      (.cons trivial rfl (.cons trivial rfl (.cons trivial rfl (.cons trivial rfl (.cons rfl rfl
      (.cons trivial rfl (.cons trivial rfl trivial)))))))))))
  refine ⟨formatted_start, hgood, _, rfl, ?_⟩
  exact allocated_along formatted_start hgood rfl

/-- Two `sys_mkdir`, the second one between the search and the claim of the first. -/
def two_mkdirs : List (ℕ × event) :=
  [(1, .enter .mkdir), (1, .create_chain 0), (1, .go), (2, .enter .mkdir),
    (2, .create_chain 0), (2, .go), (1, .go), (1, .go), (2, .go), (2, .go)]

/-- They get the same cluster. -/
theorem two_mkdirs_share : Start formatted
    ∧ ∃ s, run formatted two_mkdirs = some s ∧ s.returned = [3, 3] ∧ ¬ Allocated s := by
  refine ⟨formatted_start, _, rfl, rfl, fun h => ?_⟩
  have hnodup : [3, 3].Nodup := h.once
  exact absurd hnodup (by decide)

end Pintos.allocation
