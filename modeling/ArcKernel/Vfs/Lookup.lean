import Mathlib.Tactic

/-!
# Path lookup

`vfs_lookup_internal` of `bsd/vfs/vfs.c` walks the components of a path from the root, crossing
into a mounted file system when the text walked so far is a mount point.  At a symbolic link it
calls itself with the link's target, and what stood behind the link is gone.  Component by
component resolution (`resolve`) goes on with the target followed by the rest.

`vfs_lookup_nofollow` is the same function with `follow = false`.
-/

namespace ArcKernel.Vfs

/-- Bytes of a path, without the final zero. -/
abbrev Text : Type := List UInt8

def slash : UInt8 := 47

/-- `VFS_SYMLINK_MAX`. -/
def symlinkMax : Nat := 8

/-- What the scanning loop cuts a path into; slashes in a row count as one. -/
def components (path : Text) : List Text := (path.splitOn slash).filter (· ≠ [])

/-- A name behind the text walked so far. -/
def join (acc name : Text) : Text :=
  if acc.getLast? = some slash then acc ++ name else acc ++ slash :: name

structure Mount (Node : Type) where
  used : Bool
  path : Text
  root : Option Node

/-- The mounts, and what the file systems answer: `lookup`, and for a vnode of type `VLNK` what
`readlink` reads (`none` when it fails). -/
structure Tree (Node : Type) where
  mounts : List (Mount Node)
  lookup : Node → Text → Option Node
  link : Node → Option (Option Text)

/-- How a walk ends. -/
inductive Walked (Node : Type) where
  | found (node : Node)
  | missing
  /-- A path of 256 bytes or more was met. -/
  | long
  | link (dir : Text) (target : Option Text) (rest : List Text)

namespace Tree

variable {Node : Type} (T : Tree Node) (follow : Bool)

/-- `vfs_root_mount`, and its root. -/
def root : Option Node := T.mounts.head?.bind Mount.root

/-- `vfs_find_mount`. -/
def findMount (path : Text) : Option (Mount Node) :=
  T.mounts.find? fun m => m.used && m.path == path

/-- The loop of `vfs_lookup_internal`, up to its end or to the first link. -/
def walk : Text → Node → List Text → Walked Node
  | _, cur, [] => .found cur
  | acc, cur, c :: rest =>
    if 255 < c.length ∨ 256 ≤ (join acc c).length then .long
    else
      let next := match T.findMount (join acc c) with
        | some m => m.root
        | none => T.lookup cur c
      match next with
      | none => .missing
      | some next =>
        match T.link next with
        | some target =>
          if follow = true ∨ rest ≠ [] then .link acc target rest else walk (join acc c) next rest
        | none => walk (join acc c) next rest

/-- The walk from the root mount. -/
def walkFrom (cs : List Text) : Walked Node :=
  match T.root with
  | none => .missing
  | some root => T.walk follow [slash] root cs

/-- Where a link in `dir` leads. -/
def targetPath (dir t : Text) : Text := if t.head? = some slash then t else join dir t

/-- The test before `combined` is filled. -/
def Refused (dir t : Text) : Prop := t.head? ≠ some slash ∧ 256 < dir.length + 1 + t.length + 1

instance (dir t : Text) : Decidable (Refused dir t) := inferInstanceAs (Decidable (_ ∧ _))

/-- `vfs_lookup_internal`, with the number of links it may still follow. -/
def lookupInternal : Nat → Text → Option Node
  | links, path =>
    match T.walkFrom follow (components path) with
    | .found node => some node
    | .missing => none
    | .long => none
    | .link dir target _ =>
      match links, target with
      | links + 1, some t =>
        let t := t.take 255
        if Refused dir t then none else lookupInternal links (targetPath dir t)
      | _, _ => none

/-- `vfs_lookup`. -/
def vfsLookup (path : Text) : Option Node := T.lookupInternal true symlinkMax path

/-! ## Resolution -/

/-- Resolution of a list of components that may follow so many links: a link is replaced by its
target and the rest stays.  `none` when there are more links or a path has 256 bytes or more. -/
def resolve : Nat → List Text → Option (Option Node)
  | links, cs =>
    match T.walkFrom follow cs with
    | .found node => some (some node)
    | .missing => some none
    | .long => none
    | .link dir target rest =>
      match links, target with
      | 0, _ => none
      | _ + 1, none => some none
      | links + 1, some t =>
        if 256 ≤ t.length ∨ 256 ≤ (targetPath dir t).length then none
        else resolve links (components (targetPath dir t) ++ rest)

/-- The call finds what its path resolves to, and so does each call it makes. -/
def Right : Nat → Text → Prop
  | 0, path => T.resolve follow 0 (components path) = some (T.lookupInternal follow 0 path)
  | links + 1, path =>
    T.resolve follow (links + 1) (components path) =
        some (T.lookupInternal follow (links + 1) path) ∧
      ∀ dir t rest, T.walkFrom follow (components path) = .link dir (some t) rest →
        ¬Refused dir t → Right links (targetPath dir t)

/-- What stands behind a link makes no difference, at each link met: the target resolves to the
same with it and without it.  A link that is refused leads nowhere; below 256 bytes, that is one
of 254 bytes in the root directory. -/
def Harmless : Nat → Text → Prop
  | 0, _ => True
  | links + 1, path => ∀ dir t rest, T.walkFrom follow (components path) = .link dir (some t) rest →
    if Refused dir t then
      T.resolve follow links (components (targetPath dir t) ++ rest) = some none
    else
      T.resolve follow links (components (targetPath dir t) ++ rest) =
          T.resolve follow links (components (targetPath dir t)) ∧
        Harmless links (targetPath dir t)

variable {T follow}

/-! ## What a longer path does -/

/-- How the walk of some components ends, against that of a longer list. -/
def Walked.Before (rest : List Text) : Walked Node → Walked Node → Prop
  | .found _, _ => True
  | .missing, w => w = .missing
  | .long, w => w = .long
  | .link dir t r, w => w = .link dir t (r ++ rest)

theorem walk_append (acc : Text) (cur : Node) (cs rest : List Text) :
    Walked.Before rest (T.walk follow acc cur cs) (T.walk follow acc cur (cs ++ rest)) := by
  induction cs generalizing acc cur with
  | nil => trivial
  | cons c cs ih =>
    rw [List.cons_append, walk, walk]
    split
    · rfl
    dsimp only
    generalize (match T.findMount (join acc c) with
      | some m => m.root
      | none => T.lookup cur c) = next
    cases next with
    | none => rfl
    | some next =>
      dsimp only
      cases T.link next with
      | none => exact ih _ _
      | some target =>
        dsimp only
        by_cases hstop : follow = true ∨ cs ≠ []
        · rw [if_pos hstop, if_pos (hstop.imp_right fun h => by simp [h])]
          rfl
        · rw [if_neg hstop]
          obtain rfl : cs = [] := by
            by_contra hne
            exact hstop (.inr hne)
          trivial

theorem walkFrom_append (cs rest : List Text) :
    Walked.Before rest (T.walkFrom follow cs) (T.walkFrom follow (cs ++ rest)) := by
  unfold walkFrom
  cases T.root with
  | none => rfl
  | some root => exact walk_append _ _ _ _

/-- A path resolves, to something or nothing, when a longer one does. -/
theorem resolve_isSome_of_append {links : Nat} {cs rest : List Text}
    (h : (T.resolve follow links (cs ++ rest)).isSome) : (T.resolve follow links cs).isSome := by
  induction links generalizing cs rest with
  | zero =>
    have happ : Walked.Before rest (T.walkFrom follow cs) _ := walkFrom_append cs rest
    rw [resolve] at h ⊢
    cases hwalk : T.walkFrom follow cs with
    | found node => rfl
    | missing => rfl
    | long | link dir target r =>
      rw [hwalk] at happ
      rw [happ] at h
      exact h
  | succ links ih =>
    have happ : Walked.Before rest (T.walkFrom follow cs) _ := walkFrom_append cs rest
    rw [resolve] at h ⊢
    cases hwalk : T.walkFrom follow cs with
    | found node => rfl
    | missing => rfl
    | long =>
      rw [hwalk] at happ
      rw [happ] at h
      exact h
    | link dir target r =>
      rw [hwalk] at happ
      rw [happ] at h
      cases target with
      | none => rfl
      | some t =>
        dsimp only at h ⊢
        split at h
        · cases h
        · rename_i hshort
          rw [if_neg hshort]
          rw [← List.append_assoc] at h
          exact ih h

/-! ## When the lookup is right -/

theorem Right.resolved {links : Nat} {path : Text} (h : T.Right follow links path) :
    T.resolve follow links (components path) = some (T.lookupInternal follow links path) := by
  cases links with
  | zero => exact h
  | succ links => exact h.1

theorem right_iff {links : Nat} {path : Text}
    (h : (T.resolve follow links (components path)).isSome) :
    T.Right follow links path ↔ T.Harmless follow links path := by
  induction links generalizing path with
  | zero =>
    refine iff_of_true ?_ trivial
    rw [Right, lookupInternal]
    rw [resolve] at h ⊢
    cases hwalk : T.walkFrom follow (components path) with
    | found node => rfl
    | missing => rfl
    | long | link dir target rest =>
      rw [hwalk] at h
      cases h
  | succ links ih =>
    rw [Right, Harmless, lookupInternal]
    rw [resolve] at h ⊢
    cases hwalk : T.walkFrom follow (components path) with
    | found node | missing => exact iff_of_true ⟨rfl, by rintro _ _ _ ⟨⟩⟩ (by rintro _ _ _ ⟨⟩)
    | long =>
      rw [hwalk] at h
      cases h
    | link dir target rest =>
      rw [hwalk] at h
      cases target with
      | none => exact iff_of_true ⟨rfl, by rintro _ _ _ ⟨⟩⟩ (by rintro _ _ _ ⟨⟩)
      | some t =>
        dsimp only at h ⊢
        split at h
        · cases h
        rename_i hshort
        have htake : t.take 255 = t := List.take_of_length_le (by omega)
        rw [if_neg hshort, htake]
        have hnext := ih (resolve_isSome_of_append h)
        by_cases hrefused : Refused dir t
        · rw [if_pos hrefused]
          constructor
          · rintro ⟨hnone, -⟩ _ _ _ ⟨⟩
            rw [if_pos hrefused]
            exact hnone
          · intro hharmless
            have hnone := hharmless dir t rest rfl
            rw [if_pos hrefused] at hnone
            refine ⟨hnone, ?_⟩
            rintro _ _ _ ⟨⟩ hok
            exact absurd hrefused hok
        rw [if_neg hrefused]
        constructor
        · rintro ⟨hfound, hright⟩ _ _ _ ⟨⟩
          have hcall := hright dir t rest rfl hrefused
          rw [if_neg hrefused]
          exact ⟨hfound.trans hcall.resolved.symm, hnext.mp hcall⟩
        · intro hharmless
          have hsame := hharmless dir t rest rfl
          rw [if_neg hrefused] at hsame
          have hcall := hnext.mpr hsame.2
          refine ⟨hsame.1.trans hcall.resolved, ?_⟩
          rintro _ _ _ ⟨⟩ _
          exact hcall

/-- The lookup of a path that resolves over at most eight links and below 256 bytes, and every
lookup it makes on the way, is right exactly when what stands behind a link makes no difference. -/
theorem vfsLookup_right_iff {path : Text}
    (h : (T.resolve true symlinkMax (components path)).isSome) :
    (T.Right true symlinkMax path ↔ T.Harmless true symlinkMax path) ∧
      (T.Harmless true symlinkMax path →
        T.resolve true symlinkMax (components path) = some (T.vfsLookup path)) :=
  ⟨right_iff h, fun hharmless => ((right_iff h).mpr hharmless).resolved⟩

/-- `/d/f`, and a link `/l` to `d`. -/
def linkToDir : Tree Nat where
  mounts := [⟨true, [slash], some 0⟩]
  lookup
    | 0, [100] => some 1
    | 0, [108] => some 2
    | 1, [102] => some 3
    | _, _ => none
  link n := if n = 2 then some (some [100]) else none

/-- The path `/l`. -/
theorem vfsLookup_right_link : linkToDir.resolve true symlinkMax (components [slash, 108]) =
    some (linkToDir.vfsLookup [slash, 108]) := by
  refine (vfsLookup_right_iff (by decide)).2 ?_
  rintro dir t rest hlink
  obtain ⟨rfl, rfl, rfl⟩ : dir = [slash] ∧ t = [100] ∧ rest = [] := by
    cases hlink
    exact ⟨rfl, rfl, rfl⟩
  refine ⟨rfl, fun dir t rest hlink => ?_⟩
  cases hlink

/-- The path `/l/f` names `/d/f`; the lookup finds `/d`. -/
theorem rest_behind_link_is_lost :
    linkToDir.resolve true symlinkMax (components [slash, 108, slash, 102]) = some (some 3) ∧
      linkToDir.vfsLookup [slash, 108, slash, 102] = some 1 := by
  decide

/-! ## References

The walk holds one reference on the vnode it stands at, and every way out of it gives back what it
holds or hands it to the caller. -/

section References

variable [DecidableEq Node]

/-- `vnode_get`, over the reference counts; the count of a vnode that is not in memory is 0. -/
def vnodeGet (refs : Node → ℤ) (node : Node) : Node → ℤ := refs + Pi.single node 1

/-- `vnode_put`.  At 0 it destroys the vnode or leaves it to the cache, where no other vnode's
count changes. -/
def vnodePut (refs : Node → ℤ) (node : Node) : Node → ℤ := refs - Pi.single node 1

variable (T follow)

/-- The loop of `walk` with its references: `cur` comes with one. -/
def walkRefs : Text → Node → List Text → (Node → ℤ) → Walked Node × (Node → ℤ)
  | _, cur, [], refs => (.found cur, refs)
  | acc, cur, c :: rest, refs =>
    if 255 < c.length ∨ 256 ≤ (join acc c).length then (.long, vnodePut refs cur)
    else
      let next := match T.findMount (join acc c) with
        | some m => m.root
        | none => T.lookup cur c
      match next with
      | none => (.missing, vnodePut refs cur)
      | some next =>
        -- the root of a mount is got here, what a file system finds comes with a reference
        let refs := vnodeGet refs next
        match T.link next with
        | some target =>
          if follow = true ∨ rest ≠ [] then
            (.link acc target rest, vnodePut (vnodePut refs next) cur)
          else walkRefs (join acc c) next rest (vnodePut refs cur)
        | none => walkRefs (join acc c) next rest (vnodePut refs cur)

/-- `lookupInternal` with its references. -/
def lookupRefs : Nat → Text → (Node → ℤ) → Option Node × (Node → ℤ)
  | links, path, refs =>
    match T.root with
    | none => (none, refs)
    | some root =>
      match T.walkRefs follow [slash] root (components path) (vnodeGet refs root) with
      | (.found node, refs) => (some node, refs)
      | (.missing, refs) => (none, refs)
      | (.long, refs) => (none, refs)
      | (.link dir target _, refs) =>
        match links, target with
        | links + 1, some t =>
          let t := t.take 255
          if Refused dir t then (none, refs) else lookupRefs links (targetPath dir t) refs
        | _, _ => (none, refs)

variable {T follow}

/-- The counts once the caller holds what was found. -/
def holding (refs : Node → ℤ) : Option Node → Node → ℤ
  | none => refs
  | some node => vnodeGet refs node

/-- What a walk hands to its caller. -/
def Walked.node? : Walked Node → Option Node
  | .found node => some node
  | _ => none

theorem walkRefs_eq (acc : Text) (cur : Node) (cs : List Text) (refs : Node → ℤ) :
    T.walkRefs follow acc cur cs refs = (T.walk follow acc cur cs,
      holding (vnodePut refs cur) (Walked.node? (T.walk follow acc cur cs))) := by
  induction cs generalizing acc cur refs with
  | nil => exact Prod.ext rfl (sub_add_cancel refs _).symm
  | cons c cs ih =>
    -- one step on: the reference of `next` is held in place of that of `cur`
    have hstep (next : Node) :
        vnodePut (vnodePut (vnodeGet refs next) cur) next = vnodePut refs cur := by
      rw [vnodePut, vnodePut, vnodeGet, vnodePut]
      abel
    rw [walkRefs, walk]
    split
    · rfl
    dsimp only
    generalize (match T.findMount (join acc c) with
      | some m => m.root
      | none => T.lookup cur c) = next
    cases next with
    | none => rfl
    | some next =>
      dsimp only
      cases T.link next with
      | none => rw [ih, hstep]
      | some target =>
        dsimp only
        split
        · exact Prod.ext rfl (congrArg (vnodePut · cur) (add_sub_cancel_right refs _))
        · rw [ih, hstep]

theorem lookupRefs_eq (links : Nat) (path : Text) (refs : Node → ℤ) :
    T.lookupRefs follow links path refs = (T.lookupInternal follow links path,
      holding refs (T.lookupInternal follow links path)) := by
  have hroot (root : Node) : vnodePut (vnodeGet refs root) root = refs :=
    add_sub_cancel_right refs _
  induction links generalizing path refs with
  | zero =>
    rw [lookupRefs, lookupInternal, walkFrom]
    cases T.root with
    | none => rfl
    | some root =>
      dsimp only
      rw [walkRefs_eq, hroot]
      cases T.walk follow [slash] root (components path) <;> rfl
  | succ links ih =>
    rw [lookupRefs, lookupInternal, walkFrom]
    cases T.root with
    | none => rfl
    | some root =>
      dsimp only
      rw [walkRefs_eq, hroot]
      cases T.walk follow [slash] root (components path) with
      | found node | missing | long => rfl
      | link dir target rest =>
        cases target with
        | none => rfl
        | some t =>
          dsimp only
          split
          · rfl
          · exact ih _ _ fun _ => add_sub_cancel_right refs _

/-- A lookup ends, finds what `lookupInternal` finds, and changes no reference count except that of
the vnode it returns, which gains one. -/
theorem lookup_references (path : Text) (refs : Node → ℤ) (node : Node) :
    (T.lookupRefs follow symlinkMax path refs).1 = T.lookupInternal follow symlinkMax path ∧
      (T.lookupRefs follow symlinkMax path refs).2 node =
        refs node + if T.lookupInternal follow symlinkMax path = some node then 1 else 0 := by
  rw [lookupRefs_eq]
  refine ⟨rfl, ?_⟩
  cases T.lookupInternal follow symlinkMax path with
  | none => exact (add_zero _).symm
  | some found =>
    have hone : vnodeGet refs found node = refs node + if node = found then 1 else 0 :=
      congrArg (refs node + ·) (Pi.single_apply found 1 node)
    simpa [holding, eq_comm] using hone

end References

end Tree

end ArcKernel.Vfs
