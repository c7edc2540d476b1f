import ArcKernel.Names.TreeRuns

/-!
# Link counts

The count in the table and the one in a cached vnode agree with the number of entries, as long
as `unlink` meets no cached vnode whose copy it would leave behind, no open vnode is doomed,
and no directory changes its parent.
-/

namespace ArcKernel.Names

open ArcKernel.Foundation Function List

namespace NameSys

variable {s t : NameSys} {d i j : Nat} {n : Name} {p : List UInt8}

/-! ## Both copies of an inode -/

/-- Every cached copy is what the table has. -/
def Coherent (s : NameSys) : Prop := ∀ i c, s.cache i = some c → s.slot i = c

/-- Both copies of an inode set to `a`. -/
def relink (s : NameSys) (i : Nat) (a : Attr) : NameSys :=
  { s with
    slot := update s.slot i a
    cache := update s.cache i (some a) }

theorem flush_coherent (h : s.Coherent) (i : Nat) : s.flush i = s := by
  unfold flush
  split
  · rename_i c hc
    unfold setSlot
    rw [← h i c hc, update_eq_self]
  · rfl

theorem load_coherent (h : s.Coherent) (i : Nat) : (s.load i).Coherent := by
  unfold load
  split
  · exact h
  intro j c hj
  rcases update_cases hj with ⟨rfl, ⟨⟩⟩ | ⟨-, hj⟩
  · rfl
  · exact h j c hj

theorem load_slot (s : NameSys) (i : Nat) : (s.load i).slot = s.slot := by
  unfold load
  split <;> rfl

theorem load_doomed (s : NameSys) (i : Nat) : (s.load i).doomed = s.doomed := by
  unfold load
  split <;> rfl

theorem load_held (s : NameSys) (i : Nat) : (s.load i).held = s.held := by
  unfold load
  split <;> rfl

theorem load_cache_self (h : s.Coherent) (i : Nat) :
    (s.load i).cache i = some ((s.load i).slot i) := by
  unfold load
  split
  · rename_i c hc
    rw [hc, h i c hc]
  · exact update_self ..

theorem load_cache_of_ne (s : NameSys) (hne : j ≠ i) : (s.load i).cache j = s.cache j := by
  unfold load
  split
  · rfl
  · exact update_of_ne hne ..

/-- A count changed in the vnode and written back. -/
theorem adjust_flush (hc : s.cache i = some (s.slot i)) (k : BitVec 16) :
    (s.adjust i k).flush i = s.relink i ⟨(s.slot i).kind, (s.slot i).links + k⟩ := by
  have hadjust : s.adjust i k = s.setCache i (some ⟨(s.slot i).kind, (s.slot i).links + k⟩) := by
    unfold adjust
    rw [hc]
  rw [hadjust]
  unfold flush
  rw [show (s.setCache i (some ⟨(s.slot i).kind, (s.slot i).links + k⟩)).cache i =
    some ⟨(s.slot i).kind, (s.slot i).links + k⟩ from update_self ..]
  rfl

theorem relink_coherent (h : s.Coherent) (i : Nat) (a : Attr) : (s.relink i a).Coherent := by
  intro j c hj
  rcases update_cases hj with ⟨rfl, ⟨⟩⟩ | ⟨hji, hj⟩
  · exact update_self ..
  · rw [show (s.relink i a).slot j = s.slot j from update_of_ne hji ..]
    exact h j c hj

theorem discard_coherent (h : s.Coherent) (i : Nat) : (s.discard i).Coherent := by
  obtain ⟨-, -, -, hslot, -, hcache⟩ := s.discard_eq i
  intro j c hj
  rw [hcache] at hj
  rcases update_cases hj with ⟨-, ⟨⟩⟩ | ⟨hji, hj⟩
  rw [hslot, update_of_ne hji]
  exact h j c hj

/-- An inode nobody has open leaves no vnode behind. -/
theorem discard_doomed (h : s.held i = 0) : (s.discard i).doomed = s.doomed := by
  unfold discard invalidate
  split
  · rfl
  · exact if_pos h

/-! ## The invariant -/

/-- All copies of all counts are right. -/
structure Exact (s : NameSys) : Prop where
  sane : s.Sane
  coherent : s.Coherent
  dirs : ∀ i, s.isDir i = true → (s.slot i).links.toNat = s.names i
  calm : s.doomed = []

theorem Exact.links (h : s.Exact) (hu : s.used i = true) : (s.slot i).links.toNat = s.names i := by
  cases hd : s.isDir i with
  | true => exact h.dirs i hd
  | false => exact (h.sane.files i hu hd).1

/-- Nothing names an inode that is free. -/
theorem Sane.names_free (h : s.Sane) (hi : s.used i = false) : s.names i = 0 := by
  refine Finset.sum_eq_zero fun d _ => countP_eq_zero.mpr fun e he hino => ?_
  have hlive := h.tree.live d e he
  rw [beq_iff_eq.mp hino, hi] at hlive
  cases hlive

theorem Exact.load (h : s.Exact) (hu : s.used i = true) : (s.load i).Exact := by
  have hquiet := Quiet.load h.sane.cached hu
  refine ⟨h.sane.load hu, load_coherent h.coherent i, fun j hj => ?_, ?_⟩
  · rw [hquiet.isDir] at hj
    rw [hquiet.names, load_slot]
    exact h.dirs j hj
  · rw [load_doomed]
    exact h.calm

/-- Nothing changes but the order of entries, or what a free inode's slot holds. -/
theorem Exact.quiet (h : s.Exact) (hq : Quiet s t)
    (hslot : ∀ i, s.used i = true → t.slot i = s.slot i) (hcache : t.cache = s.cache)
    (hdoomed : t.doomed = s.doomed) : t.Exact := by
  refine ⟨h.sane.quiet hq, fun i c hc => ?_, fun i hi => ?_, hdoomed.trans h.calm⟩
  · rw [hcache] at hc
    rw [hslot i (h.sane.cached i c hc).1]
    exact h.coherent i c hc
  · rw [hq.isDir] at hi
    rw [hq.names, hslot i (isDir_iff.mp hi).1]
    exact h.dirs i hi

/-- An inode allocated in vain. -/
theorem Exact.allocFree (h : s.Exact) (hi : s.used i = false) (a : Attr) :
    ((s.alloc i a).free i).Exact := by
  refine h.quiet (.allocFree h.sane hi a) (fun j hj => ?_) rfl rfl
  exact (update_of_ne (ne_of_used hj hi) ..).trans (update_of_ne (ne_of_used hj hi) ..)

/-! ## Removing names -/

/-- The entry can be removed without leaving a stale copy of a count behind: the file is not
cached unless this is its last name, and what goes is not open. -/
def removable (s : NameSys) (d : Nat) (n : Name) : Bool :=
  (s.find d n).all fun i =>
    if s.isDir i || (s.slot i).links == 1 then s.held i == 0 else (s.cache i).isNone

theorem find_of_mem (h : s.Sane) (hentry : ⟨n, i⟩ ∈ s.entries d) : s.find d n = some i := by
  cases hfind : s.find d n with
  | none => exact absurd hentry (find_eq_none hfind i)
  | some j =>
    have heq := entry_eq (h.nodup d) (find_eq_some hfind) hentry rfl
    cases heq
    rfl

/-- A file has lost a name: the directories are counted as before. -/
theorem Exact.loseName (h : s.Exact) (hentry : ⟨.plain p, i⟩ ∈ s.entries d)
    (hi : s.isDir i = false) (hsane : t.Sane) (hcoherent : t.Coherent) (hsize : t.size = s.size)
    (hdir : t.isDir = s.isDir) (hentries : t.entries = (s.removeEntry d (.plain p)).entries)
    (hslot : ∀ j, j ≠ i → t.slot j = s.slot j) (hdoomed : t.doomed = s.doomed) : t.Exact := by
  refine ⟨hsane, hcoherent, fun j hj => ?_, hdoomed.trans h.calm⟩
  rw [hdir] at hj
  have hji := ne_of_isDir hj hi
  have hnames := names_removeEntry (h.sane.nodup d) hentry j (h.sane.lt_of_mem hentry)
  rw [if_neg hji.symm, Nat.add_zero] at hnames
  rw [names_congr (s := s.removeEntry d (.plain p)) hsize hentries, hnames, hslot j hji]
  exact h.dirs j hj

theorem Exact.dirUnlink (h : s.Exact) (hd : s.isDir d = true)
    (hrem : s.removable d n = true) : (s.dirUnlink d n).2.Exact := by
  obtain ⟨hsane, hok⟩ := h.sane.dirUnlink hd n
  revert hsane hok
  refine dirUnlink_cases (motive := fun r => r.2.Sane → (r.1 = .ok () → r.2.isDir = s.isDir ∧
    ∃ i, ⟨n, i⟩ ∈ s.entries d ∧ r.2.entries = (s.removeEntry d n).entries) → r.2.Exact) s d n
    ?_ ?_ ?_
  · exact fun e _ _ => h
  · rintro p i rfl hentry hkind hlinks hsane hok
    obtain ⟨hdir, -, -, hentries⟩ := hok rfl
    have hi := h.sane.isFile_of_mem hentry hkind
    have hone : (s.slot i).links = 1 := by bv_omega
    have hheld : s.held i = 0 := by
      unfold removable at hrem
      rw [find_of_mem h.sane hentry, Option.all_some, hi, hone] at hrem
      exact beq_iff_eq.mp hrem
    have hcoherent : ((s.removeEntry d (.plain p)).discard i).Coherent :=
      discard_coherent (s := s.removeEntry d (.plain p)) h.coherent i
    obtain ⟨hsize, -, -, hslot, -, -⟩ := (s.removeEntry d (.plain p)).discard_eq i
    rw [flush_coherent hcoherent] at hsane hdir hentries ⊢
    refine h.loseName hentry hi hsane hcoherent hsize hdir hentries (fun j hji => ?_)
      (discard_doomed (s := s.removeEntry d (.plain p)) hheld)
    rw [hslot, update_of_ne hji]
    rfl
  · rintro p i rfl hentry hkind hlinks hsane hok
    obtain ⟨hdir, -, -, hentries⟩ := hok rfl
    have hi := h.sane.isFile_of_mem hentry hkind
    have hcache : s.cache i = none := by
      have hone : ((s.slot i).links == 1) = false := by
        refine beq_eq_false_iff_ne.mpr fun hbad => hlinks ?_
        rw [hbad]
        rfl
      unfold removable at hrem
      rw [find_of_mem h.sane hentry, Option.all_some, hi, hone] at hrem
      exact Option.isNone_iff_eq_none.mp hrem
    have hslot (j : Nat) (hji : j ≠ i) : ((s.removeEntry d (.plain p)).setSlot i
        ⟨(s.slot i).kind, (s.slot i).links - 1⟩).slot j = s.slot j := update_of_ne hji ..
    have hcoherent : ((s.removeEntry d (.plain p)).setSlot i
        ⟨(s.slot i).kind, (s.slot i).links - 1⟩).Coherent := by
      intro j c hj
      have hji : j ≠ i := by
        rintro rfl
        cases hcache.symm.trans hj
      rw [hslot j hji]
      exact h.coherent j c hj
    rw [flush_coherent hcoherent] at hsane hdir hentries ⊢
    exact h.loseName hentry hi hsane hcoherent rfl hdir hentries hslot rfl

theorem Exact.dirRmdir (h : s.Exact) (hd : s.isDir d = true) (hc : s.cache d = some (s.slot d))
    (hrem : s.removable d n = true) : (s.dirRmdir d n).2.Exact := by
  have hsane := (h.sane.dirRmdir hd n).1
  revert hsane
  refine dirRmdir_cases (motive := fun r => r.2.Sane → r.2.Exact) s d n ?_ ?_
  · exact fun e _ => h
  rintro p i rfl hentry hkind hempty hsane
  have hi := h.sane.isDir_of_mem hentry hkind
  have hheld : s.held i = 0 := by
    unfold removable at hrem
    rw [find_of_mem h.sane hentry, Option.all_some, hi] at hrem
    exact beq_iff_eq.mp hrem
  rw [adjust_flush (s := s.removeEntry d (.plain p)) hc] at hsane ⊢
  generalize ha : (⟨((s.removeEntry d (.plain p)).slot d).kind,
    ((s.removeEntry d (.plain p)).slot d).links + -1⟩ : Attr) = a at hsane ⊢
  have hcoherent : ((s.removeEntry d (.plain p)).relink d a).Coherent :=
    relink_coherent (s := s.removeEntry d (.plain p)) h.coherent d a
  obtain ⟨-, -, -, hslot, -, -⟩ := ((s.removeEntry d (.plain p)).relink d a).discard_eq i
  refine ⟨hsane, discard_coherent hcoherent i, fun j hj => ?_, ?_⟩
  · have hji : j ≠ i := ((isDir_discard _ i j).mp hj).2
    have hjd : s.isDir j = true := by
      have hj' := isDir_iff.mp ((isDir_discard _ i j).mp hj).1
      refine isDir_iff.mpr ⟨hj'.1, ?_⟩
      by_cases hjd : j = d
      · subst hjd
        exact (isDir_iff.mp hd).2
      · rw [show ((s.removeEntry d (.plain p)).relink d a).slot j = s.slot j from
          update_of_ne hjd ..] at hj'
        exact hj'.2
    have hnames := h.sane.names_rmdir hentry hi hempty j
    have hsame : (((s.removeEntry d (.plain p)).relink d a).discard i).names j =
        ((s.removeEntry d (.plain p)).discard i).names j := by
      rw [names_discard, names_discard]
      rfl
    have hcount := h.dirs j hjd
    have hpos : 0 < s.names j := names_pos (h.sane.lt_of_isDir hjd) (h.sane.tree.dot j hjd)
    rw [hsame, hslot, update_of_ne hji]
    rw [if_neg hji.symm] at hnames
    by_cases hjd : j = d
    · subst hjd
      rw [show ((s.removeEntry j (.plain p)).relink j a).slot j = a from update_self ..]
      have hpred : a.links = (s.slot j).links - 1 := by
        rw [← ha]
        exact (BitVec.sub_eq_add_neg ..).symm
      rw [hpred, toNat_pred (hcount ▸ hpos)]
      rw [if_pos rfl] at hnames
      omega
    · rw [show ((s.removeEntry d (.plain p)).relink d a).slot j = s.slot j from update_of_ne hjd ..]
      rw [if_neg (Ne.symm hjd)] at hnames
      omega
  · exact (discard_doomed (s := (s.removeEntry d (.plain p)).relink d a) hheld).trans h.calm

/-! ## New names -/

theorem toNat_succ {x : BitVec 16} (h : x ≠ -1) : (x + 1).toNat = x.toNat + 1 := by bv_omega

theorem alloc_coherent (h : s.Exact) (hi : s.used i = false) (a : Attr) :
    (s.alloc i a).Coherent := by
  intro j c hj
  have hju := (h.sane.cached j c hj).1
  rw [show (s.alloc i a).slot j = s.slot j from update_of_ne (ne_of_used hju hi) ..]
  exact h.coherent j c hj

theorem Exact.dirMkdir (h : s.Exact) (hd : s.isDir d = true) (hc : s.cache d = some (s.slot d))
    (n : Name) {ino : Option Nat} (hfresh : s.fresh ino = true) (hmax : (s.slot d).links ≠ -1)
    (place : Option Place) (filled : Bool) : (s.dirMkdir d n ino place filled).2.Exact := by
  have hsane := h.sane.dirMkdir hd n hfresh place filled
  have hnew {i : Nat} (hi : ino = some i) : i < s.size ∧ s.used i = false := by
    subst hi
    simpa [fresh] using hfresh
  revert hsane
  refine dirMkdir_cases (motive := fun r => r.2.Sane → r.2.Exact) s d n h.sane.walks ino place
    filled ?_ ?_ ?_ ?_
  · exact fun e _ => h
  · exact fun i hi _ => h.allocFree (hnew hi).2 _
  · intro i k hi hname _
    rw [removeEntry_addEntry (s := s.alloc i ⟨.dir, 2⟩) hname]
    exact h.allocFree (hnew hi).2 _
  · intro i k hi hname hsane
    obtain ⟨p, rfl⟩ := h.sane.plain_of_new hd hname
    obtain ⟨hlt, hfree⟩ := hnew hi
    have hdi := ne_of_used (isDir_iff.mp hd).1 hfree
    have hslotd : (s.alloc i ⟨.dir, 2⟩).slot d = s.slot d := update_of_ne hdi ..
    generalize hu : ((s.alloc i ⟨.dir, 2⟩).addEntry d ⟨.plain p, i⟩ k).setEntries i
      [⟨.dot, i⟩, ⟨.dotdot, d⟩] = u at hsane ⊢
    have hcu : u.cache d = some (u.slot d) := by
      rw [← hu]
      exact hc.trans (congrArg some hslotd.symm)
    rw [adjust_flush hcu] at hsane ⊢
    have hcoherent : u.Coherent := by
      rw [← hu]
      exact alloc_coherent h hfree _
    refine ⟨hsane, relink_coherent hcoherent d _, fun j hj => ?_, ?_⟩
    · have hnames : (u.relink d ⟨(u.slot d).kind, (u.slot d).links + 1⟩).names j =
          s.names j + (if d = j then 1 else 0) + (if i = j then 2 else 0) := by
        rw [← h.sane.names_mkdir (p := p) hd hfree hlt ⟨.dir, 2⟩ k j, hu]
        rfl
      have hslotu : u.slot = (s.alloc i ⟨.dir, 2⟩).slot := by
        rw [← hu]
        rfl
      have husedu : u.used = (s.alloc i ⟨.dir, 2⟩).used := by
        rw [← hu]
        rfl
      rw [hnames]
      by_cases hjd : j = d
      · subst hjd
        rw [show (u.relink j ⟨(u.slot j).kind, (u.slot j).links + 1⟩).slot j =
          ⟨(u.slot j).kind, (u.slot j).links + 1⟩ from update_self .., hslotu, hslotd,
          if_pos rfl, if_neg hdi.symm]
        rw [toNat_succ hmax, h.dirs j hd]
      have hslotj : (u.relink d ⟨(u.slot d).kind, (u.slot d).links + 1⟩).slot j =
          (s.alloc i ⟨.dir, 2⟩).slot j := by
        rw [← hslotu]
        exact update_of_ne hjd ..
      rw [isDir_iff, hslotj] at hj
      rw [hslotj, if_neg (Ne.symm hjd)]
      by_cases hji : j = i
      · subst hji
        rw [if_pos rfl, h.sane.names_free hfree,
          show (s.alloc j ⟨.dir, 2⟩).slot j = ⟨.dir, 2⟩ from update_self ..]
        rfl
      have hslots : (s.alloc i ⟨.dir, 2⟩).slot j = s.slot j := update_of_ne hji ..
      have hused : s.used j = true := by
        have hj' : u.used j = true := hj.1
        rwa [husedu, show (s.alloc i ⟨.dir, 2⟩).used j = s.used j from update_of_ne hji ..] at hj'
      rw [hslots] at hj ⊢
      rw [if_neg (Ne.symm hji)]
      exact h.dirs j (isDir_iff.mpr ⟨hused, hj.2⟩)
    · have hdoomed : u.doomed = s.doomed := by
        rw [← hu]
        rfl
      exact hdoomed.trans h.calm

/-- A file gets one name more, and its count says so. -/
structure Named (s t : NameSys) (d i : Nat) (p : List UInt8) (pos : Nat) : Prop where
  walks : t.walks = s.walks
  size : t.size = s.size
  root : t.root = s.root
  used : ∀ j, t.used j = true ↔ s.used j = true ∨ j = i
  slot : ∀ j, j ≠ i → t.slot j = s.slot j
  kind : (t.slot i).kind ≠ .dir
  links : (t.slot i).links.toNat = s.names i + 1
  entries : t.entries = (s.addEntry d ⟨.plain p, i⟩ pos).entries

section

variable {pos : Nat} (ht : Named s t d i p pos) (hd : s.isDir d = true)
  (hi : s.isDir i = false)
include ht

include hd in
theorem Named.names (h : s.Sane) (j : Nat) :
    t.names j = s.names j + if i = j then 1 else 0 := by
  rw [← s.names_addEntry ⟨.plain p, i⟩ pos j (h.lt_of_isDir hd),
    names_congr (s := s.addEntry d ⟨.plain p, i⟩ pos) ht.size ht.entries]

include hi in
theorem Named.isDir : t.isDir = s.isDir := by
  funext j
  by_cases hji : j = i
  · subst hji
    rw [hi, (isDir_eq_false ((ht.used j).mpr (.inr rfl))).mpr ht.kind]
  · rw [Bool.eq_iff_iff, isDir_iff, isDir_iff, ht.used, ht.slot j hji]
    exact and_congr_left' (or_iff_left hji)

variable (hlt : i < s.size) (hnew : ∀ j, ⟨.plain p, j⟩ ∉ s.entries d)
include hd hi hlt hnew

theorem Sane.addName (h : s.Sane) (hcached : t.Cached) : t.Sane := by
  have hdir := ht.isDir hi
  refine ⟨ht.walks.trans h.walks, ?_, ?_, ?_, hcached, ?_⟩
  · unfold IsTree
    rw [ht.root, hdir, ht.entries]
    refine h.tree.addFile hd (by rw [hi]; decide) hnew
      (fun j hj => (ht.used j).mpr (.inl hj)) ((ht.used i).mpr (.inr rfl)) ?_
    exact mem_addEntry s d ⟨.plain p, i⟩ pos
  · rw [ht.entries]
    exact nodup_addEntry h.nodup hnew pos
  · intro j hj
    rw [ht.size]
    rcases (ht.used j).mp hj with hold | rfl
    · exact h.bound j hold
    · exact hlt
  · intro j hj hjdir
    rw [ht.names hd h]
    by_cases hji : j = i
    · subst hji
      rw [if_pos rfl]
      exact ⟨ht.links, Nat.succ_pos _⟩
    · rw [hdir] at hjdir
      rw [if_neg (Ne.symm hji), ht.slot j hji]
      exact h.files j (((ht.used j).mp hj).resolve_right hji) hjdir

/-- The same with the counts of the directories, which it leaves alone. -/
theorem Exact.addName (h : s.Exact) (hcoherent : t.Coherent)
    (hlive : ∀ j c, t.cache j = some c → t.used j = true) (hdoomed : t.doomed = s.doomed) :
    t.Exact := by
  have hcached : t.Cached :=
    fun j c hj => ⟨hlive j c hj, congrArg Attr.kind (hcoherent j c hj).symm⟩
  refine ⟨h.sane.addName ht hd hi hlt hnew hcached, hcoherent, fun j hj => ?_,
    hdoomed.trans h.calm⟩
  rw [ht.isDir hi] at hj
  have hji := ne_of_isDir hj hi
  rw [ht.names hd h.sane, if_neg hji.symm, ht.slot j hji]
  exact h.dirs j hj

end

end NameSys

end ArcKernel.Names
