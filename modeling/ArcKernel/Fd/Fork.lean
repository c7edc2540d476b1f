import ArcKernel.Foundation.Slots
import ArcKernel.Fd.Mapped
import ArcKernel.Fd.Table

/-!
# Files across `proc_fork`

`proc_fork` copies each open descriptor with `proc_fd_dup`, which takes the lowest free
descriptor of the child.  The child's table is therefore the parent's open descriptors
without the gaps between them.  The region table is copied the same way, where the places do
not matter.
-/

namespace ArcKernel.Fd

open ArcKernel.Foundation ArcKernel.Mmap List Option

variable {fds l : List FileDesc}

/-! ## The descriptor table -/

/-- A table filled from the front: the descriptors, then free slots. -/
structure Front (fds open_ : List FileDesc) : Prop where
  slots : ∃ rest, fds = open_ ++ rest ∧ ∀ f ∈ rest, f.used = false
  used : ∀ f ∈ open_, f.used = true
  capacity : ∃ k ≤ 4, fds.length = fdInitial * 2 ^ k

theorem front_fresh : Front freshTable [] :=
  ⟨⟨freshTable, rfl, fun f hf => by rw [(mem_replicate.mp hf).2]; rfl⟩,
    nofun, ⟨0, by omega, rfl⟩⟩

/-- The next descriptor of a table filled from the front is the one behind its last. -/
theorem procFdAlloc_front (h : Front fds l) (hroom : l.length < fdMax) :
    ∃ x rest, procFdAlloc true fds = some (l ++ x :: rest, l.length) ∧
      (∀ f ∈ rest, f.used = false) ∧ ∃ k ≤ 4, (l ++ x :: rest).length = fdInitial * 2 ^ k := by
  obtain ⟨rest, rfl, hrest⟩ := h.slots
  have hl : ∀ f ∈ l, (!f.used) = false := fun f hf => by rw [h.used f hf]; rfl
  obtain ⟨k, hk, hcap⟩ := h.capacity
  cases rest with
  | cons y rest =>
    have hy : (!y.used) = true := by rw [hrest y mem_cons_self]; rfl
    refine ⟨{ y with used := true, fd := l.length }, rest, ?_,
      fun f hf => hrest f (mem_cons_of_mem y hf), k, hk, ?_⟩
    · rw [procFdAlloc, findIdx?_front hl hy]
      dsimp only
      rw [markUsed, modify_eq_set_getElem?]
      simp
    · rw [← hcap, length_append, length_append, length_cons, length_cons]
  | nil =>
    rw [append_nil] at hcap ⊢
    have hk4 : k < 4 := by
      by_contra hge
      obtain rfl : k = 4 := by omega
      rw [hcap] at hroom
      exact absurd hroom (by decide)
    have hdouble : min (l.length * 2) fdMax = l.length * 2 := by
      refine min_eq_left ?_
      rw [hcap, mul_assoc, ← pow_succ]
      exact (Nat.mul_le_mul_left _ (Nat.pow_le_pow_right (by omega) hk4)).trans (by decide)
    have hpos : 0 < l.length := hcap ▸ Nat.mul_pos (by decide) (Nat.two_pow_pos k)
    obtain ⟨n, hn⟩ : ∃ n, l.length * 2 - l.length = n + 1 := ⟨l.length - 1, by omega⟩
    refine ⟨{ FileDesc.zero with used := true, fd := l.length }, List.replicate n .zero, ?_, ?_,
      k + 1, hk4, ?_⟩
    · rw [procFdAlloc, findIdx?_full hl]
      dsimp only
      rw [if_neg (by omega), hdouble, Nat.mul_div_cancel _ (by decide), hn,
        replicate_succ, markUsed, modify_eq_set_getElem?]
      simp
    · intro f hf
      rw [(mem_replicate.mp hf).2]
      rfl
    · rw [length_append, length_cons, length_replicate, pow_succ, ← mul_assoc]
      omega

/-- Copying a descriptor appends it. -/
theorem procFdDup_front {src : List FileDesc} {f : FileDesc} {i : Nat}
    (h : Front fds l) (hroom : l.length < fdMax) (refs : Refs) (hsrc : src[i]? = some f)
    (hused : f.used = true) :
    ∃ fds', procFdDup true fds src refs i = some (fds', refs.ref f.vnode, l.length) ∧
      Front fds' (l ++ [{ f with fd := l.length }]) := by
  obtain ⟨x, rest, halloc, hrest, k, hk, hcap⟩ := procFdAlloc_front h hroom
  have hget : procFdGet src i = some f := by rw [procFdGet, hsrc, filter_some, if_pos hused]
  refine ⟨l ++ { f with fd := l.length } :: rest, ?_, ⟨rest, ?_, hrest⟩, ?_, k, hk, ?_⟩
  · rw [procFdDup, hget]
    rw [halloc]
    dsimp only
    rw [set_front]
  · rw [append_assoc]
    rfl
  · intro g hg
    rcases mem_append.mp hg with hg | hg
    · exact h.used g hg
    · rw [mem_singleton.mp hg]
      exact hused
  · rw [← hcap, length_append, length_append, length_cons, length_cons]

/-- The descriptors with the numbers of their new places. -/
def renumber (l : List FileDesc) : List FileDesc := l.mapIdx fun i f => { f with fd := i }

theorem renumber_concat (l : List FileDesc) (f : FileDesc) :
    renumber (l ++ [f]) = renumber l ++ [{ f with fd := l.length }] := by
  rw [renumber, mapIdx_concat, renumber]

theorem length_renumber (l : List FileDesc) : (renumber l).length = l.length := length_mapIdx

/-- How many of the descriptors are on the vnode. -/
def heldBy (l : List FileDesc) (v : Nat) : Nat :=
  l.countP fun f => f.used && decide (f.vnode = some v)

theorem Refs.ref_apply (refs : Refs) (o : Option Nat) (v : Nat) :
    refs.ref o v = refs v + if o = some v then 1 else 0 := by
  cases o with
  | none => simp [Refs.ref]
  | some w =>
    rw [Refs.ref, Function.update_apply]
    by_cases h : v = w
    · subst h
      simp
    · rw [if_neg h, if_neg fun h' => h (some.inj h').symm, add_zero]

theorem open_le (l : List FileDesc) (n : Nat) : ((l.take n).filter (·.used)).length ≤ n :=
  (length_filter_le _ _).trans (length_take_le n l)

section

variable {grants : Nat → Bool} {parent : List FileDesc} (hgrants : ∀ i, grants i = true)
    (hparent : parent.length ≤ fdMax) (refs : Refs)
include hgrants hparent

/-- The copying loop, up to slot `n` of the parent. -/
theorem forkFds_take : ∀ n ≤ parent.length, ∃ child refs',
      (List.range n).foldl (forkFd grants parent) (freshTable, refs) = (child, refs') ∧
      Front child (renumber ((parent.take n).filter (·.used))) ∧
      ∀ v, refs' v = refs v + heldBy (parent.take n) v := by
  intro n
  induction n with
  | zero => exact fun _ => ⟨freshTable, refs, rfl, front_fresh, fun v => (add_zero _).symm⟩
  | succ n ih =>
    intro hn
    obtain ⟨child, refs', hloop, hfront, hrefs⟩ := ih (by omega)
    have hslot : parent[n]? = some (parent.get ⟨n, hn⟩) := List.getElem?_eq_getElem hn
    generalize parent.get ⟨n, hn⟩ = f at hslot
    have htake : parent.take (n + 1) = parent.take n ++ [f] := by
      rw [take_add_one, hslot]
      rfl
    rw [range_succ, foldl_append, hloop, foldl_cons, forkFd, hgrants n, htake]
    cases hused : f.used with
    | false =>
      have hnone : procFdDup true child parent refs' n = none := by
        rw [procFdDup, procFdGet, hslot, filter_some, if_neg (by simp [hused])]
      rw [hnone]
      refine ⟨child, refs', rfl, ?_, fun v => ?_⟩
      · rw [filter_append, filter_cons_of_neg (by simp [hused]), filter_nil, append_nil]
        exact hfront
      · rw [hrefs, heldBy, heldBy, countP_append, countP_singleton, hused]
        simp
    | true =>
      have hlen := open_le parent n
      obtain ⟨child', hdup, hfront'⟩ :=
        procFdDup_front hfront (by rw [length_renumber]; omega) refs' hslot hused
      rw [hdup]
      refine ⟨child', _, rfl, ?_, fun v => ?_⟩
      · rw [filter_append, filter_cons_of_pos hused, filter_nil, renumber_concat]
        rwa [length_renumber] at hfront'
      · rw [Refs.ref_apply, hrefs, heldBy, heldBy, countP_append, countP_singleton, hused]
        simp only [Bool.true_and, decide_eq_true_eq, Nat.cast_add]
        split <;> simp [add_assoc]

/-- The child's descriptors are the parent's open ones, numbered from zero. -/
theorem forkFds_spec : ∃ child refs', forkFds grants parent refs = (child, refs') ∧
      Front child (renumber (parent.filter (·.used))) ∧
      ∀ v, refs' v = refs v + heldBy parent v := by
  have h := forkFds_take hgrants hparent refs parent.length (le_refl _)
  rw [take_length] at h
  exact h

end

/-! ## The fork -/

theorem mmapFork_spec (map : MmapState) (refs : Refs) (v : Nat) :
    (mmapFork map (freshRegions refs)).refs v =
      refs v + mappedBy (mmapFork map (freshRegions refs)).regions v := by
  have hchild := (surplus_mmapFork map (freshRegions refs) v).trans (surplus_fresh refs v)
  rw [surplus] at hchild
  omega

/-- What `proc_fork` does to the files of a process: its descriptors, then its regions. -/
def procForkFiles (grants : Nat → Bool) (parent : List FileDesc) (map : MmapState) (refs : Refs) :
    List FileDesc × MmapState :=
  let child := forkFds grants parent refs
  (child.1, mmapFork map (freshRegions child.2))

/-- What an open descriptor is: its vnode, its flags and its close-on-exec mark. -/
def descriptor (fds : List FileDesc) (fd : Nat) : Option (Option Nat × BitVec 32 × Bool) :=
  (procFdGet fds fd).map fun f => (f.vnode, f.flags, f.cloexec)

/-- Every number below an open descriptor is an open descriptor. -/
def NoGaps (fds : List FileDesc) : Prop :=
  ∀ j < fds.length, ∀ i < j, (descriptor fds j).isSome → (descriptor fds i).isSome

instance (fds : List FileDesc) : Decidable (NoGaps fds) :=
  inferInstanceAs (Decidable (∀ j < fds.length, ∀ i < j, _))

theorem descriptor_isSome {i : Nat} :
    (descriptor fds i).isSome ↔ ∃ f, fds[i]? = some f ∧ f.used = true := by
  rw [descriptor, isSome_map, procFdGet]
  cases fds[i]? <;> simp

theorem descriptor_front {rest : List FileDesc} (hl : ∀ f ∈ l, f.used = true)
    (hrest : ∀ f ∈ rest, f.used = false) (i : Nat) :
    descriptor (l ++ rest) i = l[i]?.map fun f => (f.vnode, f.flags, f.cloexec) := by
  rw [descriptor, procFdGet]
  rcases Nat.lt_or_ge i l.length with hi | hi
  · rw [List.getElem?_append_left hi, List.getElem?_eq_getElem hi, filter_some,
      if_pos (hl _ (getElem_mem hi))]
  · rw [List.getElem?_append_right hi, List.getElem?_eq_none hi]
    cases hslot : rest[i - l.length]? with
    | none => rfl
    | some f => rw [filter_some, if_neg (by simp [hrest f (mem_of_getElem? hslot)])]

/-- A table filled from the front has no gaps. -/
theorem Front.descriptor (h : Front fds l) (i : Nat) :
    descriptor fds i = l[i]?.map fun f => (f.vnode, f.flags, f.cloexec) := by
  obtain ⟨rest, rfl, hrest⟩ := h.slots
  exact descriptor_front h.used hrest i

theorem renumber_descriptor (l : List FileDesc) (i : Nat) :
    (renumber l)[i]?.map (fun f => (f.vnode, f.flags, f.cloexec)) =
      l[i]?.map fun f => (f.vnode, f.flags, f.cloexec) := by
  rw [renumber, List.getElem?_mapIdx, Option.map_map]
  rfl

theorem heldBy_front (h : Front fds l) (v : Nat) : heldBy fds v = heldBy l v := by
  obtain ⟨rest, rfl, hrest⟩ := h.slots
  have hfree : heldBy rest v = 0 := countP_eq_zero.mpr fun f hf => by simp [hrest f hf]
  rw [heldBy, countP_append]
  exact (congrArg (heldBy l v + ·) hfree).trans (Nat.add_zero _)

theorem heldBy_renumber (l : List FileDesc) (v : Nat) : heldBy (renumber l) v = heldBy l v := by
  induction l using List.reverseRecOn with
  | nil => rfl
  | append_singleton l f ih =>
    rw [renumber_concat, heldBy, heldBy, countP_append, countP_append]
    exact congrArg₂ (· + ·) ih rfl

theorem heldBy_filter (l : List FileDesc) (v : Nat) :
    heldBy (l.filter (·.used)) v = heldBy l v := by
  rw [heldBy, countP_filter]
  refine countP_congr fun f _ => ?_
  cases f.used <;> simp

/-- A table without gaps is its open descriptors, then free slots. -/
theorem NoGaps.split (h : NoGaps fds) :
    ∃ rest, fds = fds.filter (·.used) ++ rest ∧ ∀ f ∈ rest, f.used = false := by
  have hfront : ∀ (i j : Nat) f g, i < j → fds[i]? = some f → fds[j]? = some g →
      (!g.used) = false → (!f.used) = false := by
    intro i j f g hij hf hg hused
    obtain ⟨hj, -⟩ := List.getElem?_eq_some_iff.mp hg
    obtain ⟨f', hf', hused'⟩ := descriptor_isSome.mp
      (h j hj i hij (descriptor_isSome.mpr ⟨g, hg, by simpa using hused⟩))
    cases hf.symm.trans hf'
    simpa using hused'
  obtain ⟨rest, hsplit, hrest⟩ := filter_eq_front hfront
  exact ⟨rest, by simpa using hsplit, fun f hf => by simpa using hrest f hf⟩

/-- **Fork keeps the files when no descriptor number is skipped.**  With enough memory, the
child's descriptors are the parent's and every vnode's count has grown by what the child
holds on it, exactly when the parent's open descriptors have no gaps. -/
theorem fork_keeps_files_iff (grants : Nat → Bool) (memory : ∀ i, grants i = true)
    (parent : List FileDesc) (capacity : parent.length ≤ fdMax) (map : MmapState) (refs : Refs) :
    ((∀ fd, descriptor (procForkFiles grants parent map refs).1 fd = descriptor parent fd) ∧
      ∀ v, (procForkFiles grants parent map refs).2.refs v =
        refs v + heldBy (procForkFiles grants parent map refs).1 v +
          mappedBy (procForkFiles grants parent map refs).2.regions v) ↔
    NoGaps parent := by
  obtain ⟨child, refs', hfork, hfront, hrefs⟩ := forkFds_spec memory capacity refs
  simp only [procForkFiles, hfork]
  have hchild : ∀ fd, descriptor child fd =
      (parent.filter (·.used))[fd]?.map fun f => (f.vnode, f.flags, f.cloexec) := fun fd =>
    (hfront.descriptor fd).trans (renumber_descriptor _ fd)
  constructor
  · rintro ⟨hsame, -⟩ j hj i hij hopen
    rw [← hsame, hchild, isSome_map, isSome_getElem?] at hopen ⊢
    omega
  · intro hgaps
    refine ⟨fun fd => ?_, fun v => ?_⟩
    · obtain ⟨rest, hsplit, hrest⟩ := hgaps.split
      conv_rhs => rw [hsplit]
      rw [hchild, descriptor_front (fun f hf => (mem_filter.mp hf).2) hrest]
    · rw [mmapFork_spec, hrefs, heldBy_front hfront, heldBy_renumber, heldBy_filter]

/-- A descriptor on a vnode, at its own number. -/
def openDesc (fd v : Nat) : FileDesc :=
  { FileDesc.zero with fd := fd, vnode := some v, used := true }

/-- Standard input, output and error on the console (vnode 1), a log file (vnode 2). -/
def shellTable : List FileDesc :=
  [openDesc 0 1, openDesc 1 1, openDesc 2 1,
    { openDesc 3 2 with flags := O_APPEND, cloexec := true }] ++
    List.replicate 12 .zero

/-- A page of the log file, mapped. -/
def shellMap : MmapState :=
  ⟨⟨0x50000000, 4096, 1, 2, some 2, 0, true⟩ :: List.replicate 31 .zero, 0x50001000, fun _ => 0, []⟩

theorem fork_keeps_files_shell :
    (∀ fd, descriptor (procForkFiles (fun _ => true) shellTable shellMap fun _ => 0).1 fd =
      descriptor shellTable fd) ∧
      (procForkFiles (fun _ => true) shellTable shellMap fun _ => 0).2.refs 1 = 3 ∧
      (procForkFiles (fun _ => true) shellTable shellMap fun _ => 0).2.refs 2 = 2 := by
  obtain ⟨hsame, hrefs⟩ := (fork_keeps_files_iff (fun _ => true) (fun _ => rfl) shellTable
    (by decide) shellMap fun _ => 0).mpr (by decide)
  exact ⟨hsame, (hrefs 1).trans (by decide +kernel), (hrefs 2).trans (by decide +kernel)⟩

/-- Standard input is closed: the child finds the parent's standard output in its place. -/
theorem fork_moves_descriptors :
    let parent := [FileDesc.zero, openDesc 1 7] ++ List.replicate 14 .zero
    let child := (procForkFiles (fun _ => true) parent (freshRegions fun _ => 0) fun _ => 0).1
    descriptor parent 0 = none ∧ descriptor parent 1 = some (some 7, 0, false) ∧
      descriptor child 0 = some (some 7, 0, false) ∧ descriptor child 1 = none := by
  decide +kernel

end ArcKernel.Fd
