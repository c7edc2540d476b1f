import ArcKernel.Names.Shape

/-!
# Runs of mkdir, rmdir and rename

Each call, from a name space in shape, leaves one in shape, as long as a rename leaves
directories with their parents: `ext2_dir_rename` and `ufs_dir_rename` neither rewrite the
`..` of a directory they move nor look whether it moves below itself.  Blocks have less than
65536 bytes, and nothing fails below the calls.
-/

namespace ArcKernel.Names

open ArcKernel.Foundation Function Option

variable {motive : Except Errno Unit × NameSys → Prop} {d i : Nat}

namespace NameSys

variable {s t : NameSys} {n : Name} {fault : Errno}

/-! ## What the calls can do -/

section

variable (s : NameSys) (d : Nat) (n : Name)

/-- The cases of `unlink`: nothing, a name less, or the last name. -/
theorem dirUnlink_cases (failed : ∀ e, motive (.error e, s))
    (last : ∀ p i, n = .plain p → ⟨.plain p, i⟩ ∈ s.entries d → (s.slot i).kind ≠ .dir →
      (s.slot i).links - 1 = 0 →
      motive (.ok (), ((s.removeEntry d (.plain p)).discard i).flush d))
    (one : ∀ p i, n = .plain p → ⟨.plain p, i⟩ ∈ s.entries d → (s.slot i).kind ≠ .dir →
      (s.slot i).links - 1 ≠ 0 →
      motive (.ok (), ((s.removeEntry d (.plain p)).setSlot i
        ⟨(s.slot i).kind, (s.slot i).links - 1⟩).flush d)) : motive (s.dirUnlink d n) := by
  unfold dirUnlink
  split
  · exact failed _
  rename_i hname
  cases n with
  | dot => exact absurd (.inl rfl) hname
  | dotdot => exact absurd (.inr rfl) hname
  | plain p =>
    split
    · exact failed _
    rename_i i hfind
    split
    · exact failed _
    rename_i hkind
    dsimp only
    split
    · rename_i hlinks
      exact last p i rfl (find_eq_some hfind) hkind hlinks
    · rename_i hlinks
      exact one p i rfl (find_eq_some hfind) hkind hlinks

/-- The cases of `rmdir`: nothing, or an empty directory goes. -/
theorem dirRmdir_cases (failed : ∀ e, motive (.error e, s))
    (removed : ∀ p i, n = .plain p → ⟨.plain p, i⟩ ∈ s.entries d → (s.slot i).kind = .dir →
      s.occupied i = false →
      motive (.ok (), (((s.removeEntry d (.plain p)).adjust d (-1)).flush d).discard i)) :
    motive (s.dirRmdir d n) := by
  unfold dirRmdir
  split
  · exact failed _
  rename_i hname
  cases n with
  | dot => exact absurd (.inl rfl) hname
  | dotdot => exact absurd (.inr rfl) hname
  | plain p =>
    split
    · exact failed _
    rename_i i hfind
    split
    · exact failed _
    rename_i hkind
    split
    · exact failed _
    rename_i hempty
    exact removed p i rfl (find_eq_some hfind) (not_not.mp hkind)
      (Bool.eq_false_of_not_eq_true hempty)

/-- The cases of `mkdir`: nothing, an inode allocated in vain, or a new directory. -/
theorem dirMkdir_cases (hwalks : s.walks = true) (ino : Option Nat) (place : Option Place)
    (filled : Bool) (failed : ∀ e, motive (.error e, s))
    (vain : ∀ i, ino = some i → motive (.error .enospc, (s.alloc i ⟨.dir, 2⟩).free i))
    (unfilled : ∀ i k, ino = some i → (∀ j, ⟨n, j⟩ ∉ s.entries d) → motive (.error .enospc,
      (((s.alloc i ⟨.dir, 2⟩).addEntry d ⟨n, i⟩ k).removeEntry d n).free i))
    (made : ∀ i k, ino = some i → (∀ j, ⟨n, j⟩ ∉ s.entries d) → motive (.ok (),
      ((((s.alloc i ⟨.dir, 2⟩).addEntry d ⟨n, i⟩ k).setEntries i
        [⟨.dot, i⟩, ⟨.dotdot, d⟩]).adjust d 1).flush d)) :
    motive (s.dirMkdir d n ino place filled) := by
  have hadd (i : Nat) := dirAddEntry_eq (s := s.alloc i ⟨.dir, 2⟩) hwalks d
  have hwalks' (i k : Nat) : ((s.alloc i ⟨.dir, 2⟩).addEntry d ⟨n, i⟩ k).walks = true := hwalks
  unfold dirMkdir
  simp only [hadd, hwalks', if_true]
  split
  · exact failed _
  rename_i hfind
  have hnew := find_eq_none (not_isSome_iff_eq_none.mp hfind)
  split
  · exact failed _
  rename_i i
  split
  · exact vain i rfl
  split
  · exact made i _ rfl hnew
  · exact unfilled i _ rfl hnew

end

/-! ## Each call keeps the shape -/

theorem Sane.isDir_of_mem (h : s.Sane) (hentry : ⟨n, i⟩ ∈ s.entries d)
    (hkind : (s.slot i).kind = .dir) : s.isDir i = true :=
  isDir_iff.mpr ⟨h.tree.live d _ hentry, hkind⟩

theorem Sane.isFile_of_mem (h : s.Sane) (hentry : ⟨n, i⟩ ∈ s.entries d)
    (hkind : (s.slot i).kind ≠ .dir) : s.isDir i = false :=
  (isDir_eq_false (h.tree.live d _ hentry)).mpr hkind

/-- Every directory has entries for `.` and `..`. -/
theorem Sane.plain_of_new (h : s.Sane) (hd : s.isDir d = true)
    (hnew : ∀ j, ⟨n, j⟩ ∉ s.entries d) : ∃ p, n = .plain p := by
  cases n with
  | dot => exact absurd (h.tree.dot d hd) (hnew d)
  | dotdot =>
    by_cases hroot : d = s.root
    · subst hroot
      exact absurd h.tree.top.2 (hnew _)
    · obtain ⟨p, -, hp⟩ := h.tree.exists_parent hd hroot
      exact absurd hp (hnew p)
  | plain p => exact ⟨p, rfl⟩

theorem Sane.load (h : s.Sane) (hu : s.used i = true) : (s.load i).Sane :=
  h.quiet (.load h.cached hu)

/-- An entry that was added is taken out again. -/
theorem removeEntry_addEntry (hnew : ∀ j, ⟨n, j⟩ ∉ s.entries d) (i pos : Nat) :
    (s.addEntry d ⟨n, i⟩ pos).removeEntry d n = s := by
  have hself : (s.addEntry d ⟨n, i⟩ pos).entries d = placeEntry (s.entries d) ⟨n, i⟩ pos :=
    update_self ..
  have hdrop : dropEntry (placeEntry (s.entries d) ⟨n, i⟩ pos) n = s.entries d :=
    dropEntry_placeEntry (e := ⟨n, i⟩) hnew pos
  have hback : update (update s.entries d
      (placeEntry (s.entries d) ⟨n, i⟩ pos)) d (s.entries d) = s.entries := by
    rw [update_idem, update_eq_self]
  unfold removeEntry
  rw [hself, hdrop]
  unfold addEntry setEntries
  rw [hback]

section

variable (h : s.Sane) (hd : s.isDir d = true) (n : Name)
include h hd

/-- `..._dir_unlink` keeps the shape, and takes out one entry at most. -/
theorem Sane.dirUnlink : (s.dirUnlink d n).2.Sane ∧ ((s.dirUnlink d n).1 = .ok () →
      (s.dirUnlink d n).2.isDir = s.isDir ∧ ∃ i, ⟨n, i⟩ ∈ s.entries d ∧
          (s.dirUnlink d n).2.entries = (s.removeEntry d n).entries) := by
  refine dirUnlink_cases (motive := fun r => r.2.Sane ∧ (r.1 = .ok () → r.2.isDir = s.isDir ∧
    ∃ i, ⟨n, i⟩ ∈ s.entries d ∧ r.2.entries = (s.removeEntry d n).entries)) s d n ?_ ?_ ?_
  · exact fun e => ⟨h, nofun⟩
  · rintro p i rfl hentry hkind hlinks
    have hi := h.isFile_of_mem hentry hkind
    have hsane := h.unlinkLast hentry hi hlinks
    have hdir : ((s.removeEntry d (.plain p)).discard i).isDir = s.isDir := isDir_discard_file hi
    have hquiet := Quiet.flush hsane.cached (hdir ▸ hd)
    refine ⟨hsane.quiet hquiet, fun _ => ⟨hquiet.isDir.trans hdir, i, hentry, ?_⟩⟩
    rw [hquiet.entries]
    exact entries_discard_file
      ((update_of_ne (ne_of_isDir hd hi).symm ..).trans (h.entries_file hi))
  · rintro p i rfl hentry hkind hlinks
    have hi := h.isFile_of_mem hentry hkind
    have hsane := h.unlinkOne hentry hi hlinks rfl
    have hdir : ((s.removeEntry d (.plain p)).setSlot i
        ⟨(s.slot i).kind, (s.slot i).links - 1⟩).isDir = s.isDir := isDir_setSlot rfl
    have hquiet := Quiet.flush hsane.cached (hdir ▸ hd)
    exact ⟨hsane.quiet hquiet, fun _ => ⟨hquiet.isDir.trans hdir, i, hentry, hquiet.entries⟩⟩

/-- `..._dir_rmdir` keeps the shape. -/
theorem Sane.dirRmdir : (s.dirRmdir d n).2.Sane ∧ ((s.dirRmdir d n).1 = .ok () →
      ∃ p i, n = .plain p ∧ ⟨.plain p, i⟩ ∈ s.entries d ∧ s.isDir i = true ∧ s.occupied i = false ∧
        Quiet ((s.removeEntry d n).discard i) (s.dirRmdir d n).2) := by
  refine dirRmdir_cases (motive := fun r => r.2.Sane ∧ (r.1 = .ok () → ∃ p i, n = .plain p ∧
    ⟨.plain p, i⟩ ∈ s.entries d ∧ s.isDir i = true ∧ s.occupied i = false ∧
    Quiet ((s.removeEntry d n).discard i) r.2)) s d n ?_ ?_
  · exact fun e => ⟨h, nofun⟩
  · rintro p i rfl hentry hkind hempty
    have hi := h.isDir_of_mem hentry hkind
    have hcached : (s.removeEntry d (.plain p)).Cached := h.cached
    have hadjust := Quiet.adjust hcached d (-1)
    have hquiet := (hadjust.trans (.flush hadjust.cached (hadjust.isDir ▸ hd))).discard i
    exact ⟨(h.rmdir hentry hi hempty).quiet hquiet, fun _ =>
      ⟨p, i, rfl, hentry, hi, hempty, hquiet⟩⟩

/-- `..._dir_mkdir` keeps the shape. -/
theorem Sane.dirMkdir {ino : Option Nat} (hfresh : s.fresh ino = true) (place : Option Place)
    (filled : Bool) : (s.dirMkdir d n ino place filled).2.Sane := by
  have hnew {i : Nat} (hi : ino = some i) : i < s.size ∧ s.used i = false := by
    subst hi
    simpa [fresh] using hfresh
  refine dirMkdir_cases (motive := fun r => r.2.Sane) s d n h.walks ino place filled ?_ ?_ ?_ ?_
  · exact fun e => h
  · exact fun i hi => h.quiet (.allocFree h (hnew hi).2 _)
  · -- the entry that was added is taken out again
    intro i k hi hname
    rw [removeEntry_addEntry (s := s.alloc i ⟨.dir, 2⟩) hname]
    exact h.quiet (.allocFree h (hnew hi).2 _)
  · intro i k hi hname
    obtain ⟨p, rfl⟩ := h.plain_of_new hd hname
    have hmade := h.mkdir hd (hnew hi).2 (hnew hi).1 hname k (a := ⟨.dir, 2⟩) rfl
    have hadjust := Quiet.adjust hmade.cached d 1
    have hd' : (((s.alloc i ⟨.dir, 2⟩).addEntry d ⟨.plain p, i⟩ k).setEntries i
        [⟨.dot, i⟩, ⟨.dotdot, d⟩]).isDir d = true := by
      have hne := ne_of_used (isDir_iff.mp hd).1 (hnew hi).2
      refine isDir_iff.mpr ⟨(update_of_ne hne ..).trans (isDir_iff.mp hd).1, ?_⟩
      rw [show (((s.alloc i ⟨.dir, 2⟩).addEntry d ⟨.plain p, i⟩ k).setEntries i
        [⟨.dot, i⟩, ⟨.dotdot, d⟩]).slot d = s.slot d from update_of_ne hne ..]
      exact (isDir_iff.mp hd).2
    exact hmade.quiet (hadjust.trans (.flush hadjust.cached (hadjust.isDir ▸ hd')))

end

/-! ## Rename -/

section Rename

variable {sd dd si : Nat} {p m : List UInt8}

/-- Removing the target of a rename leaves its source where it is. -/
theorem Sane.clearTarget (h : s.Sane) (hdd : s.isDir dd = true)
    (hentry : ⟨.plain p, si⟩ ∈ s.entries sd) (hne : ¬ (sd = dd ∧ p = m)) :
    (s.clearTarget dd (.plain m) (decide ((s.slot si).kind = .dir))).2.Sane ∧
      ((s.clearTarget dd (.plain m) (decide ((s.slot si).kind = .dir))).1 = .ok () →
        ⟨.plain p, si⟩ ∈
            (s.clearTarget dd (.plain m) (decide ((s.slot si).kind = .dir))).2.entries sd ∧
          (∀ j, ⟨.plain m, j⟩ ∉
            (s.clearTarget dd (.plain m) (decide ((s.slot si).kind = .dir))).2.entries dd) ∧
          (s.clearTarget dd (.plain m) (decide ((s.slot si).kind = .dir))).2.isDir dd = true ∧
          (s.clearTarget dd (.plain m) (decide ((s.slot si).kind = .dir))).2.isDir si =
            s.isDir si) := by
  have hother : ¬ (sd = dd ∧ (⟨.plain p, si⟩ : Entry).name = .plain m) := by
    rintro ⟨rfl, hname⟩
    cases hname
    exact hne ⟨rfl, rfl⟩
  unfold NameSys.clearTarget
  split
  · rename_i hfind
    exact ⟨h, fun _ => ⟨hentry, find_eq_none hfind, hdd, rfl⟩⟩
  split
  · split
    · exact ⟨h, nofun⟩
    obtain ⟨hsane, hok⟩ := h.dirRmdir hdd (.plain m)
    split
    · rename_i e s' hr
      rw [hr] at hsane
      exact ⟨hsane, nofun⟩
    rename_i s' hr
    rw [hr] at hsane hok
    obtain ⟨m', i, hm, htarget, hi, hempty, hquiet⟩ := hok rfl
    cases hm
    refine ⟨hsane, fun _ => ?_⟩
    have hentries := ((s.removeEntry dd (.plain m)).discard_eq i).2.2.2.2.1
    have hsd : sd ≠ i := by
      rintro rfl
      exact h.leaf htarget hi hempty p si hentry
    have hddi := h.ne_leaf htarget hi hempty
    have hsi : si ≠ i := by
      rintro rfl
      obtain rfl := h.tree.parent_unique ⟨hi, p, hentry⟩ ⟨hi, m, htarget⟩
      exact hne ⟨rfl, h.tree.once sd p m si hentry htarget hi⟩
    rw [hquiet.entries, hquiet.isDir, hentries]
    refine ⟨?_, fun j hbad => ?_, (isDir_discard _ i dd).mpr ⟨hdd, hddi⟩, ?_⟩
    · rw [update_of_ne hsd]
      exact (mem_removeEntry (h.nodup dd) htarget sd _).mpr ⟨hentry, hother⟩
    · rw [update_of_ne hddi] at hbad
      exact ((mem_removeEntry (h.nodup dd) htarget dd _).mp hbad).2 ⟨rfl, rfl⟩
    · rw [Bool.eq_iff_iff, isDir_discard]
      exact ⟨fun hj => hj.1, fun hj => ⟨hj, hsi⟩⟩
  · split
    · exact ⟨h, nofun⟩
    obtain ⟨hsane, hok⟩ := h.dirUnlink hdd (.plain m)
    split
    · rename_i e s' hr
      rw [hr] at hsane
      exact ⟨hsane, nofun⟩
    rename_i s' hr
    rw [hr] at hsane hok
    obtain ⟨hdir, i, htarget, hentries⟩ := hok rfl
    refine ⟨hsane, fun _ => ?_⟩
    rw [hentries, hdir]
    refine ⟨?_, fun j hbad => ?_, hdd, rfl⟩
    · exact (mem_removeEntry (h.nodup dd) htarget sd _).mpr ⟨hentry, hother⟩
    · exact ((mem_removeEntry (h.nodup dd) htarget dd _).mp hbad).2 ⟨rfl, rfl⟩

/-- The entry itself moves. -/
theorem Sane.moveEntry (h : s.Sane) (hentry : ⟨.plain p, si⟩ ∈ s.entries sd)
    (hdd : s.isDir dd = true) (hnew : ∀ j, ⟨.plain m, j⟩ ∉ s.entries dd)
    (hsame : s.isDir si = true → sd = dd) (srcDir : Bool) {place back : Option Place}
    (hplace : place.isSome = true ∨ back.isSome = true) :
    (s.moveEntry sd (.plain p) dd (.plain m) si srcDir place back).2.Sane := by
  have hsd : s.isDir sd = true := h.tree.dirs sd _ hentry
  have hcached : (s.removeEntry sd (.plain p)).Cached := h.cached
  have hshift := Quiet.shift hcached (srcDir && dd != sd) sd dd 1
  unfold NameSys.moveEntry
  split
  · exact h
  dsimp only
  split
  · rename_i place
    rw [dirAddEntry_eq (hshift.walks.trans h.walks)]
    have hmoved := (h.move hentry hdd hnew hsame place.pos).quiet
      (hshift.addEntry dd ⟨.plain m, si⟩ place.pos)
    have hdir := (hshift.addEntry dd ⟨.plain m, si⟩ place.pos).isDir
    have hflush := Quiet.flush (d := sd) hmoved.cached (hdir ▸ hsd)
    split
    · exact hmoved.quiet hflush
    · exact hmoved.quiet (hflush.trans (.flush hflush.cached (hflush.isDir ▸ hdir ▸ hdd)))
  · have hback := hshift.trans (.shift hshift.cached (srcDir && dd != sd) sd dd (-1))
    split
    · rename_i back
      rw [dirAddEntry_eq (hback.walks.trans h.walks)]
      exact (h.putBack hentry back.pos).quiet (hback.addEntry sd ⟨.plain p, si⟩ back.pos)
    · rcases hplace with hbad | hbad <;> cases hbad

/-- `..._dir_rename` keeps the shape when a directory keeps its parent and an entry that finds
no place can go back. -/
theorem Sane.dirRename (h : s.Sane) (hdd : s.isDir dd = true) (sn dn : Name)
    {place back : Option Place}
    (hsame : ∀ i, s.find sd sn = some i → s.isDir i = true → sd = dd)
    (hplace : place.isSome = true ∨ back.isSome = true) :
    (s.dirRename sd sn dd dn place back).2.Sane := by
  unfold NameSys.dirRename
  split
  · exact h
  rename_i hdots
  push Not at hdots
  split
  · exact h
  rename_i hne
  split
  · exact h
  rename_i si hfind
  cases sn with
  | dot => exact absurd rfl hdots.1.1
  | dotdot => exact absurd rfl hdots.1.2
  | plain p =>
    cases dn with
    | dot => exact absurd rfl hdots.2.1
    | dotdot => exact absurd rfl hdots.2.2
    | plain m =>
      have hentry := find_eq_some hfind
      obtain ⟨hsane, hok⟩ := h.clearTarget (m := m) hdd hentry
        (fun hbad => hne ⟨hbad.1, congrArg Name.plain hbad.2⟩)
      dsimp only
      split
      · rename_i e s' hr
        rw [hr] at hsane
        exact hsane
      · rename_i s' hr
        rw [hr] at hsane hok
        obtain ⟨hentry', hnew, hdd', hdir⟩ := hok rfl
        exact hsane.moveEntry hentry' hdd' hnew (fun hi => hsame si hfind (hdir ▸ hi)) _ hplace

end Rename

/-! ## Runs -/

/-- A directory keeps its parent, an entry that finds no place can go back, and nothing fails below
the call. -/
def keepsParents (s : NameSys) : NameCall → Bool
  | .rename sd sn dd _ place back =>
    ((s.find sd sn).all fun i => !s.isDir i || sd == dd) && (place.isSome || back.isSome)
  | .faulty _ => false
  | _ => true

end NameSys

/-- The calls that make, remove and move directories; lookups and the vnode cache go on beside
them. -/
def NameCall.onTree : NameCall → Bool
  | .mkdir .. | .rmdir .. | .rename .. | .lookup _ | .open _ | .close _ | .evict _ => true
  | .faulty _ => true
  | _ => false

namespace NameSys

variable {s t : NameSys}

theorem Sane.step {call : NameCall} (h : s.Sane) (hcall : call.onTree = true)
    (hkeeps : s.keepsParents call = true) (hstep : nameStep s call = some t) : t.Sane := by
  cases call with
  | mkdir d n ino place filled =>
    obtain ⟨hguard, rfl⟩ := of_guard hstep
    obtain ⟨hd, hfresh⟩ := Bool.and_eq_true_iff.mp hguard
    have hquiet := Quiet.load h.cached (isDir_iff.mp hd).1
    exact (h.quiet hquiet).dirMkdir (hquiet.isDir ▸ hd) n (hquiet.fresh ino ▸ hfresh) place filled
  | rmdir d n =>
    obtain ⟨hd, rfl⟩ := of_guard hstep
    have hquiet := Quiet.load h.cached (isDir_iff.mp hd).1
    exact ((h.quiet hquiet).dirRmdir (hquiet.isDir ▸ hd) n).1
  | rename sd sn dd dn place back =>
    obtain ⟨hguard, rfl⟩ := of_guard hstep
    obtain ⟨hsd, hdd⟩ := Bool.and_eq_true_iff.mp hguard
    have hfirst := Quiet.load h.cached (isDir_iff.mp hsd).1
    have hquiet := hfirst.trans (.load hfirst.cached (hfirst.used ▸ (isDir_iff.mp hdd).1))
    obtain ⟨hparent, hplace⟩ := Bool.and_eq_true_iff.mp hkeeps
    refine (h.quiet hquiet).dirRename (hquiet.isDir ▸ hdd) sn dn ?_ (Bool.or_eq_true_iff.mp hplace)
    intro i hfind hi
    have hsame : s.find sd sn = some i := by
      unfold find at hfind ⊢
      rwa [hquiet.entries] at hfind
    rw [hquiet.isDir] at hi
    rw [hsame, all_some, hi, Bool.not_true] at hparent
    exact beq_iff_eq.mp hparent
  | lookup i =>
    obtain ⟨hguard, rfl⟩ := of_guard hstep
    exact h.load hguard
  | «open» i =>
    obtain ⟨hguard, rfl⟩ := of_guard hstep
    exact { h with }
  | close i =>
    cases hstep
    exact { h with }
  | evict i =>
    obtain ⟨hguard, rfl⟩ := of_guard hstep
    refine { h with cached := ?_ }
    intro j c hj
    rcases update_cases hj with ⟨-, ⟨⟩⟩ | ⟨-, hj⟩
    exact h.cached j c hj
  | faulty left => cases hkeeps
  | _ => cases hcall

end NameSys

end ArcKernel.Names
