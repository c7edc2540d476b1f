import ArcKernel.Fd.Table

/-!
# File offsets of duplicated descriptors

A system of processes, each with its descriptor table.  Every descriptor carries the number
of the `open` it comes from, so descriptors with one number are the duplicates that POSIX
gives one file offset.  Here the offset is a field of the descriptor, copied at `dup`,
`dup2` and `fork` and moved on its own afterwards.
-/

namespace ArcKernel.Fd

open ArcKernel.Foundation List Option

variable {granted : Bool} {f x : FileDesc} {o : Int64} {fds fds' : List FileDesc} {fd n p q : Nat}

structure FdSys where
  procs : List (List FileDesc)
  refs : Refs
  /-- `vp->size` -/
  size : Nat → Int64
  /-- number of files opened so far -/
  opens : Nat

/-- `n` processes without open files. -/
def FdSys.start (n : Nat) : FdSys := ⟨replicate n freshTable, fun _ => 0, fun _ => 0, 0⟩

/-- The open descriptor `fd` of process `p`. -/
def FdSys.openAt (s : FdSys) (p fd : Nat) : Option FileDesc :=
  s.procs[p]?.bind fun fds => procFdGet fds fd

def FdSys.setTable (s : FdSys) (p : Nat) (fds : List FileDesc) : FdSys :=
  { s with procs := s.procs.set p fds }

/-- `f->offset = offset` -/
def FdSys.move (s : FdSys) (p fd : Nat) (offset : Int64) : FdSys :=
  { s with procs := s.procs.modify p fun fds => fds.modify fd fun f => { f with offset := offset } }

inductive FdCall where
  /-- open the file with the vnode -/
  | openFile (p v : Nat) (flags : BitVec 32) (granted : Bool)
  | dup (p fd : Nat) (granted : Bool)
  | dup2 (p oldfd newfd : Nat) (granted : Bool)
  | close (p fd : Nat)
  /-- `refused` are the descriptors for whose copies no memory is granted -/
  | fork (p : Nat) (refused : List Nat)
  | read (p fd count : Nat) (answers : List (Int × Bool))
  | write (p fd count : Nat) (answers : List WriteAnswer)
  | lseek (p fd : Nat) (offset : Int64) (whence : Whence)

/-- The descriptor a call moves, and its new offset. -/
def moves (s : FdSys) : FdCall → Option (Nat × Nat × Int64)
  | .read p fd count answers =>
      (s.openAt p fd).bind fun f => (readOffset f count answers).map fun o => (p, fd, o)
  | .write p fd count answers =>
      (s.openAt p fd).bind fun f => f.vnode.bind fun v =>
        (writeOffset f (s.size v) count answers).1.map fun o => (p, fd, o)
  | .lseek p fd offset whence =>
      (s.openAt p fd).bind fun f => f.vnode.bind fun v =>
        (seekOffset f (s.size v) offset whence).map fun o => (p, fd, o)
  | _ => none

/-- The file sizes after a call. -/
def sizes (s : FdSys) : FdCall → Nat → Int64
  | .write p fd count answers =>
      match (s.openAt p fd).bind fun f => f.vnode.map fun v => (f, v) with
      | some (f, v) => Function.update s.size v (writeOffset f (s.size v) count answers).2
      | none => s.size
  | _ => s.size

/-- Replace the table of a process by what a call on it returns; a call that fails leaves
everything as it is. -/
def FdSys.onTable (s : FdSys) (p : Nat)
    (call : List FileDesc → Option (List FileDesc × Refs × Nat)) : Option FdSys :=
  s.procs[p]?.map fun fds =>
    match call fds with
    | none => s
    | some (fds, refs, _) => { s.setTable p fds with refs := refs }

def fdStep (s : FdSys) (c : FdCall) : Option FdSys :=
  match c with
  | .openFile p v flags granted =>
      s.procs[p]?.map fun fds =>
        match vfsOpen granted fds s.opens v flags with
        | none => s
        | some (fds, _) =>
            { s.setTable p fds with opens := s.opens + 1, refs := s.refs.ref (some v) }
  | .dup p fd granted => s.onTable p fun fds => procFdDup granted fds fds s.refs fd
  | .dup2 p oldfd newfd granted => s.onTable p fun fds => procFdDup2 granted fds s.refs oldfd newfd
  | .close p fd => s.onTable p fun fds =>
      (procFdGet fds fd).map fun f => (procFdDealloc fds fd, s.refs.put f.vnode, 0)
  | .fork p refused =>
      s.procs[p]?.map fun fds =>
        let (child, refs) := forkFds (fun i => !refused.contains i) fds s.refs
        { s with procs := s.procs ++ [child], refs := refs }
  | .read .. | .write .. | .lseek .. =>
      let written := { s with size := sizes s c }
      match moves s c with
      | none => some written
      | some (p, fd, o) => some (written.move p fd o)

/-- Descriptors that come from one `open` have one offset. -/
def Shared (s : FdSys) : Prop :=
  ∀ p fd f q gd g, s.openAt p fd = some f → s.openAt q gd = some g →
    f.origin = g.origin → f.offset = g.offset

/-- A descriptor is moved only while it is the last of its `open`. -/
def Lone (s : FdSys) (c : FdCall) : Prop :=
  ∀ p fd o f, moves s c = some (p, fd, o) → s.openAt p fd = some f → o ≠ f.offset →
    ∀ q gd g, s.openAt q gd = some g → g.origin = f.origin → q = p ∧ gd = fd

/-! ## Tables -/

theorem procFdGet_eq_some : procFdGet fds fd = some f ↔ fds[fd]? = some f ∧ f.used = true := by
  rw [procFdGet, filter_eq_some_iff]

/-- An open descriptor of a table with free slots added. -/
theorem procFdGet_grown
    (h : procFdGet (fds ++ replicate n .zero) fd = some f) : procFdGet fds fd = some f := by
  obtain ⟨hslot, hused⟩ := procFdGet_eq_some.mp h
  rw [getElem?_append] at hslot
  split at hslot
  · exact procFdGet_eq_some.mpr ⟨hslot, hused⟩
  · obtain rfl := (mem_replicate.mp (mem_of_getElem? hslot)).2
    cases hused

/-- An open descriptor of a table after a slot is overwritten. -/
theorem procFdGet_set
    (h : procFdGet (fds.set n x) fd = some f) : f = x ∨ n ≠ fd ∧ procFdGet fds fd = some f := by
  obtain ⟨hslot, hused⟩ := procFdGet_eq_some.mp h
  rw [getElem?_set] at hslot
  split at hslot
  · split at hslot
    · exact .inl (some.inj hslot).symm
    · cases hslot
  · rename_i hne
    exact .inr ⟨hne, procFdGet_eq_some.mpr ⟨hslot, hused⟩⟩

/-- Filling the descriptor just allocated leaves the other open ones. -/
theorem procFdAlloc_fill (halloc : procFdAlloc granted fds = some (fds', n))
    (h : procFdGet (fds'.set n x) fd = some f) : f = x ∨ procFdGet fds fd = some f := by
  refine (procFdGet_set h).imp_right fun ⟨hne, hget⟩ => ?_
  have hmark : ∀ {l : List FileDesc} {i : Nat}, i ≠ fd → procFdGet (markUsed l i) fd = some f →
      procFdGet l fd = some f := by
    intro l i hi hl
    rw [procFdGet, markUsed, getElem?_modify_ne _ _ hi] at hl
    exact hl
  unfold procFdAlloc at halloc
  split at halloc
  · cases halloc
    exact hmark hne hget
  split at halloc
  · cases halloc
  split at halloc
  · cases halloc
    exact procFdGet_grown (hmark hne hget)
  · cases halloc

/-- The descriptor has the origin and the offset of an open descriptor of the table. -/
def CopyOf (fds : List FileDesc) (f : FileDesc) : Prop :=
  ∃ fd g, procFdGet fds fd = some g ∧ f.origin = g.origin ∧ f.offset = g.offset

theorem CopyOf.self (h : procFdGet fds fd = some f) : CopyOf fds f := ⟨fd, f, h, rfl, rfl⟩

theorem procFdDup_copies {dst src dst' : List FileDesc} {refs refs' : Refs}
    {i : Nat} (hdup : procFdDup granted dst src refs i = some (dst', refs', n))
    (h : procFdGet dst' fd = some f) : CopyOf src f ∨ procFdGet dst fd = some f := by
  unfold procFdDup at hdup
  split at hdup
  · cases hdup
  rename_i g hg
  split at hdup
  · cases hdup
  rename_i fds m halloc
  cases hdup
  refine (procFdAlloc_fill halloc h).imp_left fun hf => ⟨i, g, hg, ?_⟩
  rw [hf]
  exact ⟨rfl, rfl⟩

theorem procFdDup2_copies {refs refs' : Refs} {oldfd newfd : Nat}
    (hdup : procFdDup2 granted fds refs oldfd newfd = some (fds', refs', n))
    (h : procFdGet fds' fd = some f) : CopyOf fds f := by
  unfold procFdDup2 at hdup
  split at hdup
  · cases hdup
  split at hdup
  · cases hdup
    exact .self h
  split at hdup
  · cases hdup
  rename_i g hg
  dsimp only at hdup
  split at hdup
  · cases hdup
  rename_i grown hgrown
  -- the table as grown has the same open descriptors
  have hopen : ∀ fd f, procFdGet grown fd = some f → procFdGet fds fd = some f := by
    intro fd f hf
    split at hgrown
    · split at hgrown
      · cases hgrown
      · exact procFdGet_grown (some.inj hgrown ▸ hf)
    · exact some.inj hgrown ▸ hf
  have hold : grown[oldfd]? = some g := by
    obtain ⟨hslot, -⟩ := procFdGet_eq_some.mp hg
    split at hgrown
    · split at hgrown
      · cases hgrown
      · rw [← some.inj hgrown,
          List.getElem?_append_left (List.getElem?_eq_some_iff.mp hslot).1, hslot]
    · exact some.inj hgrown ▸ hslot
  rw [hold] at hdup
  cases hdup
  rcases procFdGet_set h with hf | ⟨-, hf⟩
  · rw [hf]
    exact ⟨oldfd, g, hg, rfl, rfl⟩
  · exact .self (hopen _ _ hf)

theorem forkFds_copies (grants : Nat → Bool) (parent : List FileDesc) (refs : Refs)
    (h : procFdGet (forkFds grants parent refs).1 fd = some f) : CopyOf parent f := by
  have hloop : ∀ (is : List Nat) (child : List FileDesc × Refs),
      (∀ fd f, procFdGet child.1 fd = some f → CopyOf parent f) →
      ∀ fd f, procFdGet (is.foldl (forkFd grants parent) child).1 fd = some f →
        CopyOf parent f := by
    intro is
    induction is with
    | nil => exact fun _ hchild => hchild
    | cons i is ih =>
      intro child hchild
      refine ih _ fun fd f hf => ?_
      unfold forkFd at hf
      split at hf
      · exact hchild fd f hf
      · rename_i hdup
        exact (procFdDup_copies hdup hf).elim id (hchild fd f)
  refine hloop _ (freshTable, refs) (fun fd f hf => ?_) fd f h
  obtain ⟨hslot, hused⟩ := procFdGet_eq_some.mp hf
  rw [(mem_replicate.mp (mem_of_getElem? hslot)).2] at hused
  cases hused

/-! ## Steps -/

/-- The descriptor has the origin and the offset of an open descriptor of the system. -/
def FromOpen (s : FdSys) (f : FileDesc) : Prop :=
  ∃ p fd g, s.openAt p fd = some g ∧ f.origin = g.origin ∧ f.offset = g.offset

variable {s : FdSys}

theorem openAt_eq_some :
    s.openAt p fd = some f ↔ ∃ fds, s.procs[p]? = some fds ∧ procFdGet fds fd = some f := by
  rw [FdSys.openAt, bind_eq_some_iff]

theorem CopyOf.fromOpen (hp : s.procs[p]? = some fds) (h : CopyOf fds f) : FromOpen s f := by
  obtain ⟨fd, g, hg, hsame⟩ := h
  exact ⟨p, fd, g, openAt_eq_some.mpr ⟨fds, hp, hg⟩, hsame⟩

theorem FromOpen.self (h : s.openAt p fd = some f) : FromOpen s f := ⟨p, fd, f, h, rfl, rfl⟩

/-- One offset for each `open`, and numbers below the count of opens. -/
structure SharedInv (s : FdSys) : Prop where
  shared : Shared s
  below : ∀ p fd f, s.openAt p fd = some f → f.origin < s.opens

variable {t : FdSys}

/-- Copies of open descriptors keep the invariant. -/
theorem SharedInv.of_copies (h : SharedInv s) (hopens : t.opens = s.opens)
    (hfrom : ∀ p fd f, t.openAt p fd = some f → FromOpen s f) : SharedInv t := by
  constructor
  · intro p fd f q gd g hf hg horigin
    obtain ⟨_, _, f', hf', hfo, hfoff⟩ := hfrom p fd f hf
    obtain ⟨_, _, g', hg', hgo, hgoff⟩ := hfrom q gd g hg
    rw [hfoff, hgoff]
    exact h.shared _ _ _ _ _ _ hf' hg' (by rw [← hfo, ← hgo, horigin])
  · intro p fd f hf
    obtain ⟨_, _, f', hf', hfo, -⟩ := hfrom p fd f hf
    rw [hfo, hopens]
    exact h.below _ _ _ hf'

theorem openAt_setTable (h : (s.setTable p fds).openAt q fd = some f) :
    procFdGet fds fd = some f ∨ s.openAt q fd = some f := by
  obtain ⟨table, htable, hget⟩ := openAt_eq_some.mp h
  rw [FdSys.setTable, getElem?_set] at htable
  split at htable
  · split at htable
    · exact .inl (some.inj htable ▸ hget)
    · cases htable
  · exact .inr (openAt_eq_some.mpr ⟨table, htable, hget⟩)

/-- A call that leaves only copies in the table. -/
theorem onTable_inv {call : List FileDesc → Option (List FileDesc × Refs × Nat)} (h : SharedInv s)
    (hcopies : ∀ fds fds' refs n, call fds = some (fds', refs, n) →
      ∀ fd f, procFdGet fds' fd = some f → CopyOf fds f) (hstep : s.onTable p call = some t) :
    SharedInv t := by
  obtain ⟨fds, hp, rfl⟩ := map_eq_some_iff.mp hstep
  split
  · exact h
  rename_i fds' refs n hcall
  refine h.of_copies rfl fun q fd f hf => ?_
  have hf' : (s.setTable p fds').openAt q fd = some f := hf
  rcases openAt_setTable hf' with hnew | hold
  · exact (hcopies fds fds' refs n hcall fd f hnew).fromOpen hp
  · exact .self hold

theorem openFile_inv {v : Nat} {flags : BitVec 32} (h : SharedInv s)
    (hstep : fdStep s (.openFile p v flags granted) = some t) : SharedInv t := by
  obtain ⟨fds, hp, rfl⟩ := map_eq_some_iff.mp hstep
  split
  · exact h
  rename_i fds' n hopen
  obtain ⟨⟨grown, m⟩, halloc, hset⟩ := map_eq_some_iff.mp hopen
  obtain ⟨rfl, rfl⟩ := Prod.mk.inj hset
  -- every open descriptor is the new one or an old one
  have hold : ∀ q fd f, (s.setTable p (grown.set m ⟨m, some v, flags, 0, 0,
        flags &&& O_CLOEXEC != 0, true, s.opens⟩)).openAt q fd = some f →
      f.origin = s.opens ∧ f.offset = 0 ∨ f.origin < s.opens ∧ ∃ q gd, s.openAt q gd = some f := by
    intro q fd f hf
    rcases openAt_setTable hf with hnew | hf
    · rcases procFdAlloc_fill halloc hnew with rfl | hget
      · exact .inl ⟨rfl, rfl⟩
      · have hf := openAt_eq_some.mpr ⟨fds, hp, hget⟩
        exact .inr ⟨h.below _ _ _ hf, p, fd, hf⟩
    · exact .inr ⟨h.below _ _ _ hf, q, fd, hf⟩
  constructor
  · intro q fd f q' gd g hf hg horigin
    rcases hold q fd f hf with ⟨ho, hoff⟩ | ⟨ho, _, _, hf'⟩
    · rcases hold q' gd g hg with ⟨-, hoff'⟩ | ⟨ho', -⟩
      · rw [hoff, hoff']
      · omega
    · rcases hold q' gd g hg with ⟨ho', -⟩ | ⟨-, _, _, hg'⟩
      · omega
      · exact h.shared _ _ _ _ _ _ hf' hg' horigin
  · intro q fd f hf
    rcases hold q fd f hf with ⟨ho, -⟩ | ⟨ho, -⟩
    · exact ho.trans_lt (Nat.lt_succ_self _)
    · exact ho.trans (Nat.lt_succ_self _)

theorem fork_inv {refused : List Nat} (h : SharedInv s)
    (hstep : fdStep s (.fork p refused) = some t) : SharedInv t := by
  obtain ⟨fds, hp, rfl⟩ := map_eq_some_iff.mp hstep
  refine h.of_copies rfl fun q fd f hf => ?_
  obtain ⟨table, htable, hget⟩ := openAt_eq_some.mp hf
  rw [getElem?_append] at htable
  split at htable
  · exact .self (openAt_eq_some.mpr ⟨table, htable, hget⟩)
  · obtain rfl := mem_singleton.mp (mem_of_getElem? htable)
    exact (forkFds_copies _ fds s.refs hget).fromOpen hp

theorem openAt_move {gd : Nat} : (s.move p fd o).openAt q gd =
      (s.openAt q gd).map fun f => if p = q ∧ fd = gd then { f with offset := o } else f := by
  rw [FdSys.openAt, FdSys.openAt, FdSys.move, getElem?_modify]
  cases s.procs[q]? with
  | none => rfl
  | some fds =>
    simp only [Option.map_eq_map, Option.map_some, Option.bind_some]
    by_cases hp : p = q
    · rw [if_pos hp]
      simp only [procFdGet, List.getElem?_modify, hp, true_and]
      cases fds[gd]? with
      | none => rfl
      | some f =>
        by_cases hfd : fd = gd
        all_goals cases hused : f.used <;> simp [hfd, hused, filter_some]
    · simp [hp]

/-- The calls that move a descriptor: nothing else changes in the tables. -/
theorem fdStep_moves {c : FdCall} (h : moves s c = some (p, fd, o)) :
    fdStep s c = some (({ s with size := sizes s c } : FdSys).move p fd o) := by
  cases c with
  | read => simp only [fdStep, h]
  | write => simp only [fdStep, h]
  | lseek => simp only [fdStep, h]
  | _ => cases h

/-- The sizes of the files do not matter. -/
theorem SharedInv.resized (h : SharedInv s) (size : Nat → Int64) :
    SharedInv { s with size := size } :=
  h.of_copies rfl fun _ _ _ hf => FromOpen.self (s := s) hf

/-- A descriptor that is moved away from the others of its `open` is alone. -/
theorem move_inv (h : SharedInv s) (hlone : ∀ f, s.openAt p fd = some f → o ≠ f.offset →
      ∀ q gd g, s.openAt q gd = some g → g.origin = f.origin → q = p ∧ gd = fd) :
    SharedInv (s.move p fd o) := by
  have hback : ∀ q gd g', (s.move p fd o).openAt q gd = some g' →
      ∃ g, s.openAt q gd = some g ∧ g'.origin = g.origin ∧
        g'.offset = if p = q ∧ fd = gd then o else g.offset := by
    intro q gd g' hg'
    rw [openAt_move] at hg'
    obtain ⟨g, hg, rfl⟩ := map_eq_some_iff.mp hg'
    refine ⟨g, hg, ?_⟩
    split <;> exact ⟨rfl, rfl⟩
  -- the moved descriptor against any other one with its origin
  have hmoved : ∀ f q gd g, s.openAt p fd = some f → s.openAt q gd = some g → f.origin = g.origin →
      ¬ (p = q ∧ fd = gd) → o = g.offset := by
    intro f q gd g hf hg horigin hother
    by_contra ho
    have hne : o ≠ f.offset := fun h' => ho (h'.trans (h.shared _ _ _ _ _ _ hf hg horigin))
    obtain ⟨rfl, rfl⟩ := hlone f hf hne q gd g hg horigin.symm
    exact hother ⟨rfl, rfl⟩
  constructor
  · intro q gd g' r hd k' hg' hk' horigin
    obtain ⟨g, hg, hgo, hgoff⟩ := hback q gd g' hg'
    obtain ⟨k, hk, hko, hkoff⟩ := hback r hd k' hk'
    have hsame : g.origin = k.origin := by rw [← hgo, ← hko, horigin]
    rw [hgoff, hkoff]
    split
    · rename_i hhere
      obtain ⟨rfl, rfl⟩ := hhere
      split
      · rfl
      · rename_i hother
        exact hmoved g r hd k hg hk hsame hother
    · rename_i hother
      split
      · rename_i hhere
        obtain ⟨rfl, rfl⟩ := hhere
        exact (hmoved k q gd g hk hg hsame.symm hother).symm
      · exact h.shared _ _ _ _ _ _ hg hk hsame
  · intro q gd g' hg'
    obtain ⟨g, hg, hgo, -⟩ := hback q gd g' hg'
    rw [hgo]
    exact h.below _ _ _ hg

theorem fdStep_inv (s : FdSys) (c : FdCall) (t : FdSys) (h : SharedInv s) (hlone : Lone s c)
    (hstep : fdStep s c = some t) : SharedInv t := by
  cases hmoves : moves s c with
  | some m =>
    obtain ⟨p, fd, o⟩ := m
    rw [fdStep_moves hmoves] at hstep
    exact some.inj hstep ▸ move_inv (h.resized _) fun f => hlone p fd o f hmoves
  | none =>
    cases c with
    | openFile => exact openFile_inv h hstep
    | dup => exact onTable_inv h (fun fds fds' refs n hcall fd f hf =>
        (procFdDup_copies hcall hf).elim id .self) hstep
    | dup2 => exact onTable_inv h (fun fds fds' refs n hcall fd f hf =>
        procFdDup2_copies hcall hf) hstep
    | close p fd =>
      refine onTable_inv h (fun fds fds' refs n hcall gd f hf => ?_) hstep
      obtain ⟨g, -, hclose⟩ := map_eq_some_iff.mp hcall
      cases hclose
      rw [procFdGet, procFdDealloc, getElem?_modify] at hf
      by_cases hfd : fd = gd
      · cases hslot : fds[gd]? with
        | none => simp [hslot] at hf
        | some k => simp [hslot, hfd, Option.filter_some] at hf
      · simp only [hfd, if_false, Option.map_eq_map, Option.map_id'] at hf
        exact .self hf
    | fork => exact fork_inv h hstep
    | read | write | lseek =>
      simp only [fdStep, hmoves] at hstep
      exact some.inj hstep ▸ h.resized _

theorem start_inv (n : Nat) : SharedInv (.start n) := by
  have hnone : ∀ p fd f, (FdSys.start n).openAt p fd ≠ some f := by
    intro p fd f hf
    obtain ⟨fds, hfds, hget⟩ := openAt_eq_some.mp hf
    obtain rfl := (mem_replicate.mp (mem_of_getElem? hfds)).2
    obtain ⟨hslot, hused⟩ := procFdGet_eq_some.mp hget
    rw [(mem_replicate.mp (mem_of_getElem? hslot)).2] at hused
    cases hused
  exact ⟨fun p fd f q gd g hf => absurd hf (hnone p fd f),
    fun p fd f hf => absurd hf (hnone p fd f)⟩

/-- **Duplicates share their offset while only single descriptors move.**  Over a run from
processes without open files, all descriptors of one `open` have one offset in every state
reached exactly when each read, write and seek that moves a descriptor moves the only open
one of its `open`. -/
theorem offsets_shared_iff (n : Nat) (calls : List FdCall) :
    (∀ before after s, calls = before ++ after → exec fdStep (.start n) before = some s →
      Shared s) ↔
      AllSteps fdStep Lone (.start n) calls := by
  constructor
  · intro hall
    refine allSteps_iff.mpr fun before c after s hcalls run => ?_
    intro p fd o f hmoves hf hne q gd g hg horigin
    by_contra hother
    have hnext : exec fdStep (.start n) (before ++ [c]) =
        some (({ s with size := sizes s c } : FdSys).move p fd o) :=
      exec_append_eq_some.mpr ⟨s, run, exec_cons_eq_some.mpr ⟨_, fdStep_moves hmoves, rfl⟩⟩
    have hs := hall before (c :: after) s hcalls run
    have ht := hall (before ++ [c]) after _ (by rw [hcalls, append_assoc]; rfl) hnext
    have hmoved : (({ s with size := sizes s c } : FdSys).move p fd o).openAt p fd =
        some { f with offset := o } := by
      rw [openAt_move]
      exact (congrArg _ hf).trans (congrArg some (if_pos ⟨rfl, rfl⟩))
    have hkept : (({ s with size := sizes s c } : FdSys).move p fd o).openAt q gd = some g := by
      rw [openAt_move]
      refine (congrArg _ hg).trans (congrArg some (if_neg ?_))
      rintro ⟨rfl, rfl⟩
      exact hother ⟨rfl, rfl⟩
    have hoffset : o = g.offset := ht _ _ _ _ _ _ hmoved hkept horigin.symm
    exact hne (hoffset.trans (hs _ _ _ _ _ _ hg hf horigin))
  · rintro hlone before after s rfl run
    exact (exec_invariant fdStep_inv (start_inv n) hlone.left run).shared

/-- Read through one of two duplicates: the other stays behind. -/
theorem dup_read_splits_offset : ∃ s, exec fdStep (.start 1)
        [.openFile 0 5 0 true, .dup 0 0 true, .read 0 0 10 [(10, true)]] = some s ∧
      (s.openAt 0 0).map (fun f => (f.origin, f.offset)) = some (0, 10) ∧
      (s.openAt 0 1).map (fun f => (f.origin, f.offset)) = some (0, 0) ∧ ¬ Shared s := by
  refine exists_run (A := fun s =>
    (s.openAt 0 0).map (fun f => (f.origin, f.offset)) = some (0, 10) ∧
      (s.openAt 0 1).map (fun f => (f.origin, f.offset)) = some (0, 0)) (by decide +kernel) ?_
  rintro s - ⟨h₀, h₁⟩
  refine ⟨h₀, h₁, fun hshared => ?_⟩
  obtain ⟨f, hf, hfo⟩ := map_eq_some_iff.mp h₀
  obtain ⟨g, hg, hgo⟩ := map_eq_some_iff.mp h₁
  have horigin : f.origin = g.origin := (Prod.mk.inj hfo).1.trans (Prod.mk.inj hgo).1.symm
  have hoffset := hshared 0 0 f 0 1 g hf hg horigin
  rw [(Prod.mk.inj hfo).2, (Prod.mk.inj hgo).2] at hoffset
  exact absurd hoffset (by decide)

end ArcKernel.Fd
