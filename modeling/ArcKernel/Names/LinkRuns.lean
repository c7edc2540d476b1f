import ArcKernel.Names.Links

/-!
# Link counts over whole runs

`create`, `link` and `rename` on exact counts, and from them every run of directory operations
with files open or cached at any time.  `..._dir_unlink` goes to the inode table alone, so a
file with other names must not be cached when it loses one, and a file or directory that goes
must not be open.
-/

namespace ArcKernel.Names

open ArcKernel.Foundation Function Option Bool

namespace NameSys

variable {s t : NameSys} {d i j : Nat} {n : Name} {p : List UInt8}

/-! ## Create and link -/

theorem Exact.holds (h : s.Exact) (held : Nat → Nat) : { s with held := held }.Exact :=
  { h with sane := { h.sane with } }

theorem Exact.cache_free (h : s.Exact) (hi : s.used i = false) : s.cache i = none := by
  cases hc : s.cache i with
  | none => rfl
  | some c =>
    rw [(h.sane.cached i c hc).1] at hi
    cases hi

/-- A file's inode with its first name. -/
theorem Exact.create (h : s.Exact) (hd : s.isDir d = true) (hlt : i < s.size)
    (hi : s.used i = false) (hnew : ∀ j, ⟨.plain p, j⟩ ∉ s.entries d) (pos : Nat) :
    ((s.alloc i ⟨.file, 1⟩).addEntry d ⟨.plain p, i⟩ pos).Exact := by
  have hslot : (s.alloc i ⟨.file, 1⟩).slot i = ⟨.file, 1⟩ := update_self ..
  have hused (j : Nat) : (s.alloc i ⟨.file, 1⟩).used j = true ↔ s.used j = true ∨ j = i := by
    by_cases hji : j = i
    · subst hji
      rw [show (s.alloc j ⟨.file, 1⟩).used j = true from update_self ..]
      exact iff_of_true rfl (.inr rfl)
    · rw [show (s.alloc i ⟨.file, 1⟩).used j = s.used j from update_of_ne hji ..]
      exact (or_iff_left hji).symm
  refine h.addName (s := s)
    ⟨rfl, rfl, rfl, hused, fun j hji => update_of_ne hji .., ?_, ?_, rfl⟩ hd (isDir_of_free hi) hlt
    hnew (alloc_coherent h hi _) ?_ rfl
  · show ((s.alloc i ⟨.file, 1⟩).slot i).kind ≠ .dir
    rw [hslot]
    nofun
  · show ((s.alloc i ⟨.file, 1⟩).slot i).links.toNat = _
    rw [hslot, h.sane.names_free hi]
    rfl
  · exact fun j c hj => (hused j).mpr (.inl (h.sane.cached j c hj).1)

theorem Exact.dirCreate (h : s.Exact) (hd : s.isDir d = true) (n : Name) {ino : Option Nat}
    (hfresh : s.fresh ino = true) (place : Option Place) (made : Bool) :
    (s.dirCreate d n ino place made).2.Exact := by
  unfold NameSys.dirCreate
  split
  · exact h
  rename_i hfind
  have hnew := find_eq_none (not_isSome_iff_eq_none.mp hfind)
  split
  · exact h
  rename_i i
  obtain ⟨hlt, hi⟩ : i < s.size ∧ s.used i = false := by simpa [fresh] using hfresh
  dsimp only
  split
  · exact h.allocFree hi _
  rename_i place
  obtain ⟨p, rfl⟩ := h.sane.plain_of_new hd hnew
  have hmade := h.create hd hlt hi hnew place.pos
  rw [dirAddEntry_eq (s := s.alloc i ⟨.file, 1⟩) h.sane.walks]
  generalize hu : (s.alloc i ⟨.file, 1⟩).addEntry d ⟨.plain p, i⟩ place.pos = u at hmade ⊢
  rw [flush_coherent hmade.coherent]
  split
  · -- the new vnode holds what was written to the table
    have hnone : u.cache i = none := by
      rw [← hu]
      exact h.cache_free hi
    have hslot : u.slot i = ⟨.file, 1⟩ := by
      rw [← hu]
      exact update_self ..
    have hused : u.used i = true := by
      rw [← hu]
      exact update_self ..
    have hload : u.load i = u.setCache i (some ⟨.file, 1⟩) := by
      unfold NameSys.load
      rw [hnone, hslot]
    rw [hnone]
    rw [← hload]
    exact (hmade.load hused).holds _
  · exact hmade

theorem relink_self (hc : s.cache i = some (s.slot i)) : s.relink i (s.slot i) = s := by
  unfold relink
  rw [← hc, update_eq_self, update_eq_self]

theorem relink_relink (s : NameSys) (i : Nat) (a b : Attr) :
    (s.relink i a).relink i b = s.relink i b := by
  unfold relink
  rw [update_idem, update_idem]

theorem Exact.dirLink (h : s.Exact) (hd : s.isDir d = true) (hu : s.used i = true)
    (hc : s.cache i = some (s.slot i)) (hmax : (s.slot i).links ≠ -1) (n : Name)
    (place : Option Place) : (s.dirLink d n i place).2.Exact := by
  unfold NameSys.dirLink
  split
  · exact h
  rename_i hkind
  have hfile : (s.slot i).kind ≠ .dir := by
    intro hbad
    rw [hc, map_some, hbad] at hkind
    exact hkind rfl
  split
  · exact h
  rename_i hfind
  have hnew := find_eq_none (not_isSome_iff_eq_none.mp hfind)
  rw [adjust_flush hc]
  generalize ha : (⟨(s.slot i).kind, (s.slot i).links + 1⟩ : Attr) = a
  have hslot : (s.relink i a).slot i = a := update_self ..
  have hself : (s.relink i a).cache i = some ((s.relink i a).slot i) :=
    (update_self ..).trans (congrArg some hslot.symm)
  split
  · -- the count that was raised for the new entry is lowered again
    have hback : (⟨a.kind, a.links + -1⟩ : Attr) = s.slot i := by
      rw [← ha]
      rw [BitVec.add_assoc]
      exact congrArg (Attr.mk _) (BitVec.add_zero _)
    dsimp only
    rw [adjust_flush hself, relink_relink, hslot, hback, relink_self hc]
    exact h
  rename_i place
  obtain ⟨p, rfl⟩ := h.sane.plain_of_new hd hnew
  dsimp only
  rw [dirAddEntry_eq (s := s.relink i a) h.sane.walks]
  have hcoherent : ((s.relink i a).addEntry d ⟨.plain p, i⟩ place.pos).Coherent :=
    relink_coherent h.coherent i a
  have hcached (j : Nat) (c : Attr) (hj : (s.relink i a).cache j = some c) : s.used j = true := by
    by_cases hji : j = i
    · exact hji ▸ hu
    · rw [show (s.relink i a).cache j = s.cache j from update_of_ne hji ..] at hj
      exact (h.sane.cached j c hj).1
  rw [flush_coherent hcoherent]
  refine h.addName (s := s) ⟨rfl, rfl, rfl, ?_, fun j hji => update_of_ne hji .., ?_, ?_, rfl⟩ hd
    ((isDir_eq_false hu).mpr hfile) (h.sane.bound i hu) hnew hcoherent hcached rfl
  · intro j
    exact ⟨.inl, fun hj => hj.elim id fun hji => hji ▸ hu⟩
  · show ((s.relink i a).slot i).kind ≠ .dir
    rw [hslot, ← ha]
    exact hfile
  · show ((s.relink i a).slot i).links.toNat = _
    rw [hslot, ← ha]
    rw [toNat_succ hmax, h.links hu]

/-! ## Rename -/

section Rename

variable {sd dd si : Nat} {m : List UInt8}

theorem Exact.clearTarget (h : s.Exact) (hdd : s.isDir dd = true)
    (hc : s.cache dd = some (s.slot dd)) {dn : Name} (hrem : s.removable dd dn = true)
    (srcDir : Bool) : (s.clearTarget dd dn srcDir).2.Exact := by
  unfold NameSys.clearTarget
  split
  · exact h
  split
  · split
    · exact h
    have hr := h.dirRmdir hdd hc hrem
    split
    all_goals
      rename_i heq
      rwa [heq] at hr
  split
  · exact h
  have hr := h.dirUnlink hdd hrem
  split
  all_goals
    rename_i heq
    rwa [heq] at hr

theorem Exact.moveEntry (h : s.Exact) (hentry : ⟨.plain p, si⟩ ∈ s.entries sd)
    (hdd : s.isDir dd = true) (hnew : ∀ j, ⟨.plain m, j⟩ ∉ s.entries dd)
    (hsame : s.isDir si = true → sd = dd) {place back : Option Place}
    (hplace : place.isSome = true ∨ back.isSome = true) :
    (s.moveEntry sd (.plain p) dd (.plain m) si (s.isDir si) place back).2.Exact := by
  have hsane := h.sane.moveEntry hentry hdd hnew hsame (s.isDir si) hplace
  have hmoves : (s.isDir si && dd != sd) = false := by
    cases hi : s.isDir si with
    | false => rfl
    | true =>
      rw [hsame hi]
      simp
  have hshift (u : NameSys) (k : BitVec 16) : u.shift false sd dd k = u := if_neg Bool.false_ne_true
  have hadd := dirAddEntry_eq (s := s.removeEntry sd (.plain p)) h.sane.walks
  revert hsane
  unfold NameSys.moveEntry
  split
  · exact fun _ => h
  dsimp only
  rw [hmoves, hshift]
  split
  · rename_i place
    have hcoherent :
      ((s.removeEntry sd (.plain p)).addEntry dd ⟨.plain m, si⟩ place.pos).Coherent :=
      h.coherent
    rw [hadd, flush_coherent hcoherent, flush_coherent hcoherent, ite_self]
    intro hsane
    refine ⟨hsane, hcoherent, fun j hj => ?_, h.calm⟩
    rw [h.sane.names_move hentry hdd]
    exact h.dirs j hj
  · rw [hshift]
    split
    · rw [hadd]
      intro hsane
      refine ⟨hsane, h.coherent, fun j hj => ?_, h.calm⟩
      rw [h.sane.names_move hentry (h.sane.tree.dirs sd _ hentry)]
      exact h.dirs j hj
    · rcases hplace with hbad | hbad <;> cases hbad

theorem Exact.dirRename (h : s.Exact) (hdd : s.isDir dd = true)
    (hc : s.cache dd = some (s.slot dd)) (sn dn : Name) {place back : Option Place}
    (hsame : ∀ i, s.find sd sn = some i → s.isDir i = true → sd = dd)
    (hplace : place.isSome = true ∨ back.isSome = true)
    (hrem : (sd = dd ∧ sn = dn) ∨ s.removable dd dn = true) :
    (s.dirRename sd sn dd dn place back).2.Exact := by
  unfold NameSys.dirRename
  split
  · exact h
  rename_i hdots
  push Not at hdots
  split
  · exact h
  rename_i hne
  split
  · exact h
  rename_i si hfind
  cases sn with
  | dot => exact absurd rfl hdots.1.1
  | dotdot => exact absurd rfl hdots.1.2
  | plain p =>
    cases dn with
    | dot => exact absurd rfl hdots.2.1
    | dotdot => exact absurd rfl hdots.2.2
    | plain m =>
      have hentry := find_eq_some hfind
      have hok := (h.sane.clearTarget (m := m) hdd hentry
        (fun hbad => hne ⟨hbad.1, congrArg Name.plain hbad.2⟩)).2
      have hexact := h.clearTarget hdd hc (hrem.resolve_left hne) (decide ((s.slot si).kind = .dir))
      have hkind : decide ((s.slot si).kind = .dir) = s.isDir si := by
        unfold NameSys.isDir
        rw [h.sane.tree.live sd _ hentry]
        exact eq_iff_iff.mpr (decide_eq_true_iff.trans beq_iff_eq.symm)
      dsimp only
      split
      · rename_i e s' hr
        rw [hr] at hexact
        exact hexact
      · rename_i s' hr
        rw [hr] at hexact hok
        obtain ⟨hentry', hnew, hdd', hdir⟩ := hok rfl
        rw [hkind, ← hdir]
        exact hexact.moveEntry hentry' hdd' hnew (fun hi => hsame si hfind (hdir ▸ hi)) hplace

end Rename

/-! ## Runs -/

/-- The call leaves no copy of a count behind: what it removes is removable, no directory
changes its parent, no count wraps, and nothing fails below the call. -/
def settled (s : NameSys) : NameCall → Bool
  | .unlink d n | .rmdir d n => s.removable d n
  | .rename sd sn dd dn place back =>
    s.keepsParents (.rename sd sn dd dn place back) &&
      ((sd == dd && sn == dn) || s.removable dd dn)
  | .mkdir d .. => (s.slot d).links != -1
  | .link _ _ i _ => (s.slot i).links != -1
  | .faulty _ => false
  | _ => true

/-- Reading a directory's vnode in does not change what can be removed. -/
theorem removable_load (h : s.Exact) (hd : s.isDir d = true) (e : Nat) (n : Name) :
    (s.load d).removable e n = s.removable e n := by
  have hquiet := Quiet.load h.sane.cached (isDir_iff.mp hd).1
  unfold removable find
  rw [hquiet.entries, hquiet.isDir, load_slot, load_held]
  congr 1
  funext i
  by_cases hi : i = d
  · subst hi
    rw [hd]
    rfl
  · rw [load_cache_of_ne s hi]

theorem Exact.step {call : NameCall} (h : s.Exact) (hsettled : s.settled call = true)
    (hstep : nameStep s call = some t) : t.Exact := by
  cases call with
  | create d n ino place made =>
    obtain ⟨hguard, rfl⟩ := of_guard hstep
    obtain ⟨hd, hfresh⟩ := and_eq_true_iff.mp hguard
    have hquiet := Quiet.load h.sane.cached (isDir_iff.mp hd).1
    exact (h.load (isDir_iff.mp hd).1).dirCreate (hquiet.isDir ▸ hd) n
      (hquiet.fresh ino ▸ hfresh) place made
  | mkdir d n ino place filled =>
    obtain ⟨hguard, rfl⟩ := of_guard hstep
    obtain ⟨hd, hfresh⟩ := and_eq_true_iff.mp hguard
    have hquiet := Quiet.load h.sane.cached (isDir_iff.mp hd).1
    refine (h.load (isDir_iff.mp hd).1).dirMkdir (hquiet.isDir ▸ hd)
      (load_cache_self h.coherent d) n (hquiet.fresh ino ▸ hfresh) ?_ place filled
    rw [load_slot]
    exact bne_iff_ne.mp hsettled
  | unlink d n =>
    obtain ⟨hd, rfl⟩ := of_guard hstep
    have hquiet := Quiet.load h.sane.cached (isDir_iff.mp hd).1
    exact (h.load (isDir_iff.mp hd).1).dirUnlink (hquiet.isDir ▸ hd)
      ((removable_load h hd d n).trans hsettled)
  | rmdir d n =>
    obtain ⟨hd, rfl⟩ := of_guard hstep
    have hquiet := Quiet.load h.sane.cached (isDir_iff.mp hd).1
    exact (h.load (isDir_iff.mp hd).1).dirRmdir (hquiet.isDir ▸ hd)
      (load_cache_self h.coherent d) ((removable_load h hd d n).trans hsettled)
  | link d n i place =>
    obtain ⟨hguard, rfl⟩ := of_guard hstep
    obtain ⟨hd, hu⟩ := and_eq_true_iff.mp hguard
    have hfirst := Quiet.load h.sane.cached (isDir_iff.mp hd).1
    have hload := h.load (isDir_iff.mp hd).1
    have hu' : (s.load d).used i = true := hfirst.used ▸ hu
    have hquiet := hfirst.trans (.load hfirst.cached hu')
    refine (hload.load hu').dirLink (hquiet.isDir ▸ hd) (hquiet.used ▸ hu)
      (load_cache_self hload.coherent i) ?_ n place
    rw [load_slot, load_slot]
    exact bne_iff_ne.mp hsettled
  | rename sd sn dd dn place back =>
    obtain ⟨hguard, rfl⟩ := of_guard hstep
    obtain ⟨hsd, hdd⟩ := and_eq_true_iff.mp hguard
    obtain ⟨hkeeps, hrem⟩ := and_eq_true_iff.mp hsettled
    obtain ⟨hparent, hplace⟩ := and_eq_true_iff.mp hkeeps
    have hfirst := Quiet.load h.sane.cached (isDir_iff.mp hsd).1
    have hload := h.load (isDir_iff.mp hsd).1
    have hdd' : (s.load sd).isDir dd = true := hfirst.isDir ▸ hdd
    have hquiet := hfirst.trans (.load hfirst.cached (isDir_iff.mp hdd').1)
    refine (hload.load (isDir_iff.mp hdd').1).dirRename (hquiet.isDir ▸ hdd)
      (load_cache_self hload.coherent dd) sn dn ?_ (or_eq_true_iff.mp hplace) ?_
    · intro i hfind hi
      unfold find at hfind hparent
      rw [hquiet.entries] at hfind
      rw [hquiet.isDir] at hi
      rw [hfind, all_some, hi, Bool.not_true] at hparent
      exact beq_iff_eq.mp hparent
    · rw [removable_load hload hdd', removable_load h hsd]
      simpa using hrem
  | lookup i =>
    obtain ⟨hguard, rfl⟩ := of_guard hstep
    exact h.load hguard
  | «open» i =>
    obtain ⟨hguard, rfl⟩ := of_guard hstep
    exact h.holds _
  | close i =>
    cases hstep
    exact h.holds _
  | evict i =>
    obtain ⟨hguard, rfl⟩ := of_guard hstep
    have hcache {j : Nat} {c : Attr} (hj : (s.setCache i none).cache j = some c) :
        s.cache j = some c := by
      rcases update_cases hj with ⟨-, ⟨⟩⟩ | ⟨-, hj⟩
      exact hj
    exact ⟨{ h.sane with cached := fun j c hj => h.sane.cached j c (hcache hj) },
      fun j c hj => h.coherent j c (hcache hj), h.dirs, h.calm⟩
  | flush i =>
    cases hstep
    rw [flush_coherent h.coherent]
    exact h
  | flushDoomed k =>
    rw [nameStep, h.calm] at hstep
    cases hstep
  | closeDoomed k =>
    cases hstep
    have hdoomed : s.doomed.eraseIdx k = s.doomed := by
      rw [h.calm]
      rfl
    rw [hdoomed]
    exact h
  | faulty left => cases hsettled

end NameSys

end ArcKernel.Names
