import ArcKernel.Names.Tree
import ArcKernel.Foundation.Ledger

/-!
# The shape of a volume's name space

The invariant behind the tree and the link counts: the directories form a tree, no directory
has two entries of one name, a cached vnode has the type its inode has, and the slot of a file
counts the entries that name it.
-/

namespace ArcKernel.Names

open ArcKernel.Foundation Function List Entry NameSys

variable {a : Attr} {e' : Entry} {l : List Entry}

/-! ## Lists of entries -/

section Lists

variable {e : Entry} {n : Name} {i pos : Nat}

theorem placeEntry_perm (l : List Entry) (e : Entry) (pos : Nat) :
    (placeEntry l e pos).Perm (e :: l) := by
  refine perm_middle.trans ?_
  rw [take_append_drop]

theorem mem_placeEntry : e' ∈ placeEntry l e pos ↔ e' ∈ l ∨ e' = e := by
  rw [(placeEntry_perm l e pos).mem_iff, mem_cons]
  exact or_comm

section

variable (hnodup : (l.map name).Nodup)
include hnodup

theorem entry_eq (he : e ∈ l) (he' : e' ∈ l) (hname : e.name = e'.name) : e = e' :=
  inj_on_of_nodup_map hnodup he he' hname

/-- An entry is taken out by its name. -/
theorem dropEntry_perm (hmem : ⟨n, i⟩ ∈ l) : l.Perm (⟨n, i⟩ :: dropEntry l n) := by
  obtain ⟨a, l₁, l₂, -, ha, hl, hdrop⟩ :=
    exists_of_eraseP (p := fun e => e.name == n) hmem (beq_self_eq_true n)
  have hal : a ∈ l := by
    rw [hl]
    exact mem_append_right _ mem_cons_self
  obtain rfl : a = ⟨n, i⟩ := entry_eq hnodup hal hmem (beq_iff_eq.mp ha)
  rw [dropEntry, hdrop]
  nth_rewrite 1 [hl]
  exact perm_middle

theorem mem_dropEntry (hmem : ⟨n, i⟩ ∈ l) : e ∈ dropEntry l n ↔ e ∈ l ∧ e.name ≠ n := by
  have hperm := dropEntry_perm hnodup hmem
  have hfresh : n ∉ (dropEntry l n).map name := by
    have := (hperm.map name).nodup_iff.mp hnodup
    exact (nodup_cons.mp this).1
  rw [hperm.mem_iff, mem_cons]
  constructor
  · intro he
    exact ⟨.inr he, fun hname => hfresh (mem_map.mpr ⟨e, he, hname⟩)⟩
  · rintro ⟨rfl | he, hname⟩
    · exact absurd rfl hname
    · exact he

end

/-- A new entry taken out again. -/
theorem dropEntry_placeEntry (hnew : ∀ j, ⟨e.name, j⟩ ∉ l) (pos : Nat) :
    dropEntry (placeEntry l e pos) e.name = l := by
  have hfront : ∀ b ∈ l.take pos, ¬ (b.name == e.name) = true := by
    intro b hb hname
    have hmem : b ∈ l := mem_of_mem_take hb
    apply hnew b.ino
    rw [← beq_iff_eq.mp hname]
    exact hmem
  have hself : (e.name == e.name) = true := beq_self_eq_true _
  rw [dropEntry, placeEntry, eraseP_append_right _ hfront, eraseP_cons, hself]
  exact take_append_drop ..

theorem nodup_dropEntry (hnodup : (l.map name).Nodup) (n : Name) :
    ((dropEntry l n).map name).Nodup :=
  hnodup.sublist ((eraseP_sublist).map _)

theorem nodup_placeEntry (hnodup : (l.map name).Nodup) (hnew : ∀ j, ⟨e.name, j⟩ ∉ l)
    (pos : Nat) : ((placeEntry l e pos).map name).Nodup := by
  rw [((placeEntry_perm l e pos).map name).nodup_iff]
  refine nodup_cons.mpr ⟨fun hmem => ?_, hnodup⟩
  obtain ⟨e', he', hname⟩ := mem_map.mp hmem
  apply hnew e'.ino
  rw [← hname]
  exact he'

end Lists

namespace NameSys

variable {s t u : NameSys} {d i j pos : Nat} {n : Name} {e : Entry}

theorem find_eq_some (h : s.find d n = some i) : ⟨n, i⟩ ∈ s.entries d := by
  obtain ⟨e, hfind, rfl⟩ := Option.map_eq_some_iff.mp h
  have hname := List.find?_some hfind
  rw [← beq_iff_eq.mp hname]
  exact mem_of_find?_eq_some hfind

theorem find_eq_none (h : s.find d n = none) (i : Nat) : ⟨n, i⟩ ∉ s.entries d := by
  intro hmem
  have := List.find?_eq_none.mp (Option.map_eq_none_iff.mp h) _ hmem
  exact this (beq_self_eq_true n)

/-! ## Counting names -/

theorem names_setEntries (s : NameSys) (l : List Entry) (i : Nat) (hd : d < s.size) :
    (s.setEntries d l).names i + (s.entries d).countP (·.ino == i) =
      s.names i + l.countP (·.ino == i) :=
  ledger_update (Finset.range s.size) s.entries (List.countP (·.ino == i))
    (Finset.mem_range.mpr hd) l

theorem names_addEntry (s : NameSys) (e : Entry) (pos i : Nat) (hd : d < s.size) :
    (s.addEntry d e pos).names i = s.names i + if e.ino = i then 1 else 0 := by
  have hsum := s.names_setEntries (placeEntry (s.entries d) e pos) i hd
  rw [(placeEntry_perm _ e pos).countP_eq, countP_cons] at hsum
  simp only [beq_iff_eq] at hsum
  unfold addEntry
  omega

theorem names_removeEntry (hnodup : ((s.entries d).map name).Nodup)
    (hmem : ⟨n, j⟩ ∈ s.entries d) (i : Nat) (hd : d < s.size) :
    (s.removeEntry d n).names i + (if j = i then 1 else 0) = s.names i := by
  have hsum := s.names_setEntries (dropEntry (s.entries d) n) i hd
  rw [(dropEntry_perm hnodup hmem).countP_eq, countP_cons] at hsum
  simp only [beq_iff_eq] at hsum
  unfold removeEntry
  omega

theorem names_eq_zero (h : s.names i = 0) (hd : d < s.size) (he : e ∈ s.entries d) : e.ino ≠ i := by
  intro hino
  have hle := le_ledger (Finset.range s.size) s.entries (List.countP (·.ino == i))
    (Finset.mem_range.mpr hd)
  have hpos : 0 < (s.entries d).countP (·.ino == i) :=
    countP_pos_iff.mpr ⟨e, he, beq_iff_eq.mpr hino⟩
  unfold names at h
  omega

theorem names_pos (hd : d < s.size) (he : e ∈ s.entries d) : 0 < s.names e.ino := by
  refine Nat.pos_of_ne_zero fun hzero => ?_
  exact names_eq_zero hzero hd he rfl

/-! ## The invariant -/

/-- The directories form a tree. -/
def IsTree (s : NameSys) : Prop :=
  Tree s.root (fun i => s.used i = true) (fun d => s.isDir d = true) (fun d e => e ∈ s.entries d)

/-- Cached vnodes are of inodes in use, and have their type. -/
def Cached (s : NameSys) : Prop :=
  ∀ i c, s.cache i = some c → s.used i = true ∧ c.kind = (s.slot i).kind

structure Sane (s : NameSys) : Prop where
  walks : s.walks = true
  tree : s.IsTree
  nodup : ∀ d, ((s.entries d).map name).Nodup
  bound : ∀ i, s.used i = true → i < s.size
  cached : s.Cached
  files : ∀ i, s.used i = true → s.isDir i = false →
    (s.slot i).links.toNat = s.names i ∧ 0 < s.names i

theorem isDir_iff : s.isDir d = true ↔ s.used d = true ∧ (s.slot d).kind = .dir := by
  rw [isDir, Bool.and_eq_true, beq_iff_eq]

theorem isDir_eq_false (hu : s.used d = true) : s.isDir d = false ↔ (s.slot d).kind ≠ .dir := by
  rw [isDir, hu, Bool.true_and, beq_eq_false_iff_ne]

theorem isDir_of_free (hi : s.used i = false) : s.isDir i = false := by
  unfold isDir
  rw [hi, Bool.false_and]

theorem ne_of_used (hd : s.used d = true) (hi : s.used i = false) : d ≠ i := by
  rintro rfl
  rw [hd] at hi
  cases hi

theorem ne_of_isDir (hd : s.isDir d = true) (hi : s.isDir i = false) : d ≠ i := by
  rintro rfl
  rw [hd] at hi
  cases hi

/-- An inode written with the type it has. -/
theorem kind_setSlot (hkind : a.kind = (s.slot i).kind) (j : Nat) :
    ((s.setSlot i a).slot j).kind = (s.slot j).kind := by
  by_cases hj : j = i
  · subst hj
    exact (congrArg Attr.kind (update_self ..)).trans hkind
  · exact congrArg Attr.kind (update_of_ne hj ..)

theorem isDir_setSlot (hkind : a.kind = (s.slot i).kind) : (s.setSlot i a).isDir = s.isDir := by
  funext j
  unfold NameSys.isDir
  rw [kind_setSlot hkind]
  rfl

theorem names_congr (hsize : t.size = s.size) (hentries : t.entries = s.entries) :
    t.names = s.names := by
  funext i
  unfold NameSys.names
  rw [hsize, hentries]

namespace Sane

theorem lt_of_mem (h : s.Sane) (he : e ∈ s.entries d) : d < s.size :=
  h.bound d (h.tree.exist d (h.tree.dirs d e he))

theorem lt_of_isDir (h : s.Sane) (hd : s.isDir d = true) : d < s.size :=
  h.bound d (h.tree.exist d hd)

/-- Only directories have entries. -/
theorem entries_file (h : s.Sane) (hi : s.isDir i = false) : s.entries i = [] := by
  rw [eq_nil_iff_forall_not_mem]
  intro e he
  rw [h.tree.dirs i e he] at hi
  cases hi

end Sane

/-! ## Changes of link counts of directories -/

/-- `t` differs from `s` in cached copies and in link counts of directories at most. -/
structure Quiet (s t : NameSys) : Prop where
  walks : t.walks = s.walks
  size : t.size = s.size
  root : t.root = s.root
  used : t.used = s.used
  entries : t.entries = s.entries
  kind : ∀ i, s.used i = true → (t.slot i).kind = (s.slot i).kind
  file : ∀ i, s.used i = true → s.isDir i = false → t.slot i = s.slot i
  cached : t.Cached

theorem Quiet.isDir (h : Quiet s t) : t.isDir = s.isDir := by
  funext i
  unfold NameSys.isDir
  rw [h.used]
  cases hu : s.used i with
  | false => rfl
  | true => rw [h.kind i hu]

theorem Quiet.names (h : Quiet s t) : t.names = s.names := names_congr h.size h.entries

theorem Quiet.fresh (h : Quiet s t) (ino : Option Nat) : t.fresh ino = s.fresh ino := by
  unfold NameSys.fresh
  rw [h.used, h.size]

theorem Quiet.trans (h : Quiet s t) (h' : Quiet t u) : Quiet s u where
  walks := h'.walks.trans h.walks
  size := h'.size.trans h.size
  root := h'.root.trans h.root
  used := h'.used.trans h.used
  entries := h'.entries.trans h.entries
  kind := fun i hu => (h'.kind i (h.used ▸ hu)).trans (h.kind i hu)
  file := fun i hu hi => (h'.file i (h.used ▸ hu) (h.isDir ▸ hi)).trans (h.file i hu hi)
  cached := h'.cached

theorem Quiet.refl (h : s.Cached) : Quiet s s :=
  ⟨rfl, rfl, rfl, rfl, rfl, fun _ _ => rfl, fun _ _ _ => rfl, h⟩

theorem Sane.quiet (h : s.Sane) (hq : Quiet s t) : t.Sane where
  walks := hq.walks.trans h.walks
  tree := by
    unfold IsTree
    rw [hq.root, hq.used, hq.isDir, hq.entries]
    exact h.tree
  nodup := hq.entries ▸ h.nodup
  bound := by
    rw [hq.used, hq.size]
    exact h.bound
  cached := hq.cached
  files := by
    intro i hu hi
    rw [hq.used] at hu
    rw [hq.isDir] at hi
    rw [hq.names, hq.file i hu hi]
    exact h.files i hu hi

section

variable (h : s.Cached)
include h

theorem Quiet.setCache {c : Attr} (hu : s.used i = true) (hc : c.kind = (s.slot i).kind) :
    Quiet s (s.setCache i (some c)) := by
  refine ⟨rfl, rfl, rfl, rfl, rfl, fun _ _ => rfl, fun _ _ _ => rfl, ?_⟩
  intro j c' hj
  rcases update_cases hj with ⟨rfl, ⟨⟩⟩ | ⟨-, hj⟩
  · exact ⟨hu, hc⟩
  · exact h j c' hj

theorem Quiet.load (hu : s.used i = true) : Quiet s (s.load i) := by
  unfold NameSys.load
  split
  · exact .refl h
  · exact .setCache h hu rfl

theorem Quiet.adjust (i : Nat) (k : BitVec 16) : Quiet s (s.adjust i k) := by
  unfold NameSys.adjust
  split
  · rename_i c hc
    obtain ⟨hu, hkind⟩ := h i c hc
    exact .setCache h hu hkind
  · exact .refl h

theorem Quiet.shift (moves : Bool) (sd dd : Nat) (k : BitVec 16) :
    Quiet s (s.shift moves sd dd k) := by
  unfold NameSys.shift
  split
  · have hfirst := Quiet.adjust h sd (-k)
    exact hfirst.trans (.adjust hfirst.cached dd k)
  · exact .refl h

/-- Writing a directory's vnode back. -/
theorem Quiet.flush (hd : s.isDir d = true) : Quiet s (s.flush d) := by
  unfold NameSys.flush
  split
  · rename_i c hc
    have hsame := kind_setSlot (h d c hc).2
    refine ⟨rfl, rfl, rfl, rfl, rfl, fun i _ => hsame i, ?_, ?_⟩
    · exact fun i _ hi => update_of_ne (ne_of_isDir hd hi).symm ..
    · intro i c' hi
      obtain ⟨hu, hk⟩ := h i c' hi
      exact ⟨hu, hk.trans (hsame i).symm⟩
  · exact .refl h

end

theorem Quiet.setEntries (h : Quiet s t) (d : Nat) (l : List Entry) :
    Quiet (s.setEntries d l) (t.setEntries d l) :=
  { h with entries := by rw [NameSys.setEntries, NameSys.setEntries, h.entries] }

theorem Quiet.addEntry (h : Quiet s t) (d : Nat) (e : Entry) (pos : Nat) :
    Quiet (s.addEntry d e pos) (t.addEntry d e pos) := by
  unfold NameSys.addEntry
  rw [h.entries]
  exact h.setEntries d _

/-- Where blocks are walked the entry is seen. -/
theorem dirAddEntry_eq (hwalks : s.walks = true) (d : Nat) (e : Entry) (place : Place) :
    s.dirAddEntry d e place = s.addEntry d e place.pos := by
  unfold dirAddEntry
  rw [hwalks, Bool.not_true, Bool.and_false]
  rfl

/-! ## Entries after a change -/

theorem mem_removeEntry (hnodup : ((s.entries d).map name).Nodup)
    (hmem : ⟨n, i⟩ ∈ s.entries d) (d' : Nat) (e : Entry) :
    e ∈ (s.removeEntry d n).entries d' ↔ e ∈ s.entries d' ∧ ¬ (d' = d ∧ e.name = n) := by
  by_cases hd : d' = d
  · subst hd
    rw [show (s.removeEntry d' n).entries d' = dropEntry (s.entries d') n from
      update_self .., mem_dropEntry hnodup hmem]
    simp
  · rw [show (s.removeEntry d n).entries d' = s.entries d' from update_of_ne hd ..]
    simp [hd]

theorem mem_addEntry (s : NameSys) (d : Nat) (e : Entry) (pos d' : Nat) (e' : Entry) :
    e' ∈ (s.addEntry d e pos).entries d' ↔ e' ∈ s.entries d' ∨ d' = d ∧ e' = e := by
  by_cases hd : d' = d
  · subst hd
    rw [show (s.addEntry d' e pos).entries d' = placeEntry (s.entries d') e pos from
      update_self .., mem_placeEntry]
    simp
  · rw [show (s.addEntry d e pos).entries d' = s.entries d' from update_of_ne hd ..]
    simp [hd]

section

variable (hnodup : ∀ d, ((s.entries d).map name).Nodup)
include hnodup

theorem nodup_setEntries (hl : (l.map name).Nodup) (d' : Nat) :
    (((s.setEntries d l).entries d').map name).Nodup :=
  (forall_update_iff s.entries fun _ l => (l.map name).Nodup).mpr ⟨hl, fun d _ => hnodup d⟩ d'

theorem nodup_removeEntry (d : Nat) (n : Name) (d' : Nat) :
    (((s.removeEntry d n).entries d').map name).Nodup :=
  nodup_setEntries hnodup (nodup_dropEntry (hnodup d) n) d'

theorem nodup_addEntry (hnew : ∀ j, ⟨e.name, j⟩ ∉ s.entries d) (pos d' : Nat) :
    (((s.addEntry d e pos).entries d').map name).Nodup :=
  nodup_setEntries hnodup (nodup_placeEntry (hnodup d) hnew pos) d'

end

/-! ## Inodes that come and go -/

theorem discard_eq (s : NameSys) (i : Nat) :
    (s.discard i).size = s.size ∧ (s.discard i).root = s.root ∧
      (s.discard i).used = update s.used i false ∧
      (s.discard i).slot = update s.slot i ⟨.none, 0⟩ ∧
      (s.discard i).entries = update s.entries i [] ∧
      (s.discard i).cache = update s.cache i none := by
  unfold discard invalidate
  split
  · rename_i hnone
    exact ⟨rfl, rfl, rfl, rfl, rfl, (update_eq_self_iff.mpr hnone.symm).symm⟩
  · exact ⟨rfl, rfl, rfl, rfl, rfl, rfl⟩

theorem walks_discard (s : NameSys) (i : Nat) : (s.discard i).walks = s.walks := by
  unfold discard invalidate
  split <;> rfl

theorem isDir_discard (s : NameSys) (i j : Nat) :
    (s.discard i).isDir j = true ↔ s.isDir j = true ∧ j ≠ i := by
  obtain ⟨-, -, hused, hslot, -, -⟩ := s.discard_eq i
  rw [isDir_iff, isDir_iff, hused, hslot]
  by_cases hj : j = i
  · subst hj
    simp
  · simp [hj]

theorem used_discard (s : NameSys) (i j : Nat) :
    (s.discard i).used j = true ↔ s.used j = true ∧ j ≠ i := by
  obtain ⟨-, -, hused, -, -, -⟩ := s.discard_eq i
  rw [hused]
  by_cases hj : j = i
  · subst hj
    simp
  · simp [hj]

theorem isDir_discard_file (hi : s.isDir i = false) : (s.discard i).isDir = s.isDir := by
  funext j
  rw [Bool.eq_iff_iff, isDir_discard]
  exact ⟨And.left, fun hj => ⟨hj, ne_of_isDir hj hi⟩⟩

theorem entries_discard_file (hnil : s.entries i = []) : (s.discard i).entries = s.entries := by
  rw [(s.discard_eq i).2.2.2.2.1]
  exact update_eq_self_iff.mpr hnil.symm

theorem names_discard (s : NameSys) (i : Nat) :
    (s.discard i).names = (s.setEntries i []).names :=
  names_congr (t := s.discard i) (s.discard_eq i).1 (s.discard_eq i).2.2.2.2.1

theorem cached_discard (h : s.Cached) (i : Nat) : (s.discard i).Cached := by
  obtain ⟨-, -, -, hslot, -, hcache⟩ := s.discard_eq i
  intro j c hj
  rw [hcache] at hj
  rcases update_cases hj with ⟨-, ⟨⟩⟩ | ⟨hji, hj⟩
  rw [used_discard, hslot, update_of_ne hji]
  exact ⟨⟨(h j c hj).1, hji⟩, (h j c hj).2⟩

theorem Quiet.discard (h : Quiet s t) (i : Nat) : Quiet (s.discard i) (t.discard i) := by
  obtain ⟨hsize, hroot, hused, hslot, hentries, -⟩ := s.discard_eq i
  obtain ⟨hsize', hroot', hused', hslot', hentries', -⟩ := t.discard_eq i
  refine ⟨?_, ?_, ?_, ?_, ?_, ?_, ?_, cached_discard h.cached i⟩
  · rw [walks_discard, walks_discard, h.walks]
  · rw [hsize, hsize', h.size]
  · rw [hroot, hroot', h.root]
  · rw [hused, hused', h.used]
  · rw [hentries, hentries', h.entries]
  · intro j hu
    obtain ⟨hju, hj⟩ := (s.used_discard i j).mp hu
    rw [hslot, hslot', update_of_ne hj, update_of_ne hj]
    exact h.kind j hju
  · intro j hu hdir
    obtain ⟨hju, hj⟩ := (s.used_discard i j).mp hu
    rw [hslot, hslot', update_of_ne hj, update_of_ne hj]
    refine h.file j hju (Bool.eq_false_of_not_eq_true fun hd => ?_)
    rw [(s.isDir_discard i j).mpr ⟨hd, hj⟩] at hdir
    cases hdir

/-- An inode allocated in vain. -/
theorem Quiet.allocFree (h : s.Sane) (hi : s.used i = false) (a : Attr) :
    Quiet s ((s.alloc i a).free i) := by
  have hslot {j : Nat} (hj : s.used j = true) : ((s.alloc i a).free i).slot j = s.slot j :=
    (update_of_ne (ne_of_used hj hi) ..).trans (update_of_ne (ne_of_used hj hi) ..)
  have hused : ((s.alloc i a).free i).used = s.used := by
    show update (update s.used i true) i false = s.used
    rw [update_idem, update_eq_self_iff]
    exact hi.symm
  refine ⟨rfl, rfl, rfl, hused, ?_, fun j hj => by rw [hslot hj], fun j hj _ => hslot hj, ?_⟩
  · exact update_eq_self_iff.mpr (h.entries_file (isDir_of_free hi)).symm
  · intro j c hj
    obtain ⟨hu, hkind⟩ := h.cached j c hj
    rw [hused, hslot hu]
    exact ⟨hu, hkind⟩

/-! ## The operations -/

section Operations

variable {p m : List UInt8}

theorem toNat_pred {x : BitVec 16} (h : 0 < x.toNat) : (x - 1).toNat = x.toNat - 1 := by
  show (2 ^ 16 - 1 + x.toNat) % 2 ^ 16 = _
  omega

section

variable (h : s.Sane) (hentry : ⟨.plain p, i⟩ ∈ s.entries d)
include h hentry

/-- A file loses a name and keeps others. -/
theorem Sane.unlinkOne (hi : s.isDir i = false) (hlinks : (s.slot i).links - 1 ≠ 0)
    (ha : a = ⟨(s.slot i).kind, (s.slot i).links - 1⟩) :
    ((s.removeEntry d (.plain p)).setSlot i a).Sane := by
  have hu := h.tree.live d _ hentry
  have hlt := h.lt_of_mem hentry
  obtain ⟨hcount, hpos⟩ := h.files i hu hi
  have hself : ((s.removeEntry d (.plain p)).setSlot i a).slot i = a := update_self ..
  have hother {j : Nat} (hj : j ≠ i) :
      ((s.removeEntry d (.plain p)).setSlot i a).slot j = s.slot j := update_of_ne hj ..
  have hkind : a.kind = ((s.removeEntry d (.plain p)).slot i).kind := by rw [ha]; rfl
  have hdir : ((s.removeEntry d (.plain p)).setSlot i a).isDir = s.isDir := isDir_setSlot hkind
  have hnames (j : Nat) : ((s.removeEntry d (.plain p)).setSlot i a).names j +
      (if i = j then 1 else 0) = s.names j :=
    names_removeEntry (h.nodup d) hentry j hlt
  refine ⟨h.walks, ?_, nodup_removeEntry h.nodup d _, h.bound, ?_, ?_⟩
  · have htree := h.tree.removeFile hentry (by rw [hi]; exact Bool.false_ne_true)
      (fun j _ hj => hj) (mem_removeEntry (h.nodup d) hentry) (.inl hu)
    unfold IsTree
    rw [hdir]
    exact htree
  · intro j c hj
    rw [kind_setSlot hkind]
    exact h.cached j c hj
  intro j hj hjd
  rw [hdir] at hjd
  have hj' := hnames j
  by_cases hji : j = i
  · subst hji
    have hsub : a.links.toNat = (s.slot j).links.toNat - 1 := by
      rw [ha]
      exact toNat_pred (by omega)
    have hne : a.links.toNat ≠ 0 := by
      rw [ha]
      exact fun hz => hlinks (BitVec.eq_of_toNat_eq hz)
    rw [if_pos rfl] at hj'
    rw [hself]
    omega
  · rw [if_neg (Ne.symm hji)] at hj'
    rw [hother hji, show ((s.removeEntry d (.plain p)).setSlot i a).names j = s.names j by omega]
    exact h.files j hj hjd

/-- A file loses its last name and is discarded. -/
theorem Sane.unlinkLast (hi : s.isDir i = false) (hlinks : (s.slot i).links - 1 = 0) :
    ((s.removeEntry d (.plain p)).discard i).Sane := by
  have hu := h.tree.live d _ hentry
  have hlt := h.lt_of_mem hentry
  obtain ⟨hcount, hpos⟩ := h.files i hu hi
  have hdi := ne_of_isDir (h.tree.dirs d _ hentry) hi
  obtain ⟨hsize, hroot, -, hslot, -, -⟩ := (s.removeEntry d (.plain p)).discard_eq i
  -- a file has no entries, so there is nothing to clear
  have hentries : ((s.removeEntry d (.plain p)).discard i).entries =
      (s.removeEntry d (.plain p)).entries :=
    entries_discard_file ((update_of_ne hdi.symm ..).trans (h.entries_file hi))
  have hnames (j : Nat) : ((s.removeEntry d (.plain p)).discard i).names j +
      (if i = j then 1 else 0) = s.names j := by
    rw [names_congr hsize hentries]
    exact names_removeEntry (h.nodup d) hentry j hlt
  have hone : s.names i = 1 := by
    have hzero : ((s.slot i).links - 1).toNat = 0 := by rw [hlinks]; rfl
    rw [toNat_pred (by omega)] at hzero
    omega
  have hdir : ((s.removeEntry d (.plain p)).discard i).isDir = s.isDir := isDir_discard_file hi
  have hcached : (s.removeEntry d (.plain p)).Cached := h.cached
  refine ⟨(walks_discard ..).trans h.walks, ?_, ?_, ?_, cached_discard hcached i, ?_⟩
  · unfold IsTree
    rw [hdir, hentries, hroot]
    refine h.tree.removeFile hentry (by rw [hi]; exact Bool.false_ne_true) (fun j hj hju => ?_)
      (mem_removeEntry (h.nodup d) hentry) (.inr ?_)
    · exact (used_discard _ i j).mpr ⟨hju, hj⟩
    intro d' e he
    have hzero := hnames i
    rw [if_pos rfl] at hzero
    have he' : e ∈ s.entries d' := ((mem_removeEntry (h.nodup d) hentry d' e).mp he).1
    refine names_eq_zero (s := (s.removeEntry d (.plain p)).discard i) (d := d') (by omega) ?_ ?_
    · rw [hsize]
      exact h.lt_of_mem he'
    · rw [hentries]
      exact he
  · rw [hentries]
    exact nodup_removeEntry h.nodup d _
  · intro j hj
    rw [hsize]
    exact h.bound j ((used_discard _ i j).mp hj).1
  · intro j hj hjd
    obtain ⟨hju, hji⟩ := (used_discard _ i j).mp hj
    rw [hdir] at hjd
    have := hnames j
    rw [if_neg (Ne.symm hji), Nat.add_zero] at this
    rw [this, hslot, update_of_ne hji]
    exact h.files j hju hjd

/-- The entries of an empty directory. -/
theorem Sane.mem_empty (hi : s.isDir i = true) (hempty : s.occupied i = false) :
    e ∈ s.entries i ↔ e = ⟨.dot, i⟩ ∨ e = ⟨.dotdot, d⟩ := by
  have hdot := h.tree.dot i hi
  have hdotdot := (h.tree.parent d p i hentry hi).1
  constructor
  · intro he
    have hname := any_eq_false.mp hempty e he
    obtain ⟨x, k⟩ := e
    cases x with
    | dot => exact .inl (entry_eq (h.nodup i) he hdot rfl)
    | dotdot => exact .inr (entry_eq (h.nodup i) he hdotdot rfl)
    | plain m => exact absurd rfl hname
  · rintro (rfl | rfl)
    · exact hdot
    · exact hdotdot

variable (hi : s.isDir i = true) (hempty : s.occupied i = false)
include hi hempty

/-- An empty directory has its two entries and no others. -/
theorem Sane.empty_perm : (s.entries i).Perm [⟨.dot, i⟩, ⟨.dotdot, d⟩] := by
  refine (perm_ext_iff_of_nodup (List.Nodup.of_map _ (h.nodup i)) ?_).mpr fun e => ?_
  · refine nodup_cons.mpr ⟨fun hbad => ?_, nodup_singleton _⟩
    cases mem_singleton.mp hbad
  · rw [h.mem_empty hentry hi hempty, mem_cons, mem_singleton]

theorem Sane.leaf (m : List UInt8) (j : Nat) : ⟨.plain m, j⟩ ∉ s.entries i := by
  intro hmem
  rcases (h.mem_empty hentry hi hempty).mp hmem with hbad | hbad <;> cases hbad

theorem Sane.ne_leaf : d ≠ i := by
  rintro rfl
  exact h.leaf hentry hi hempty p d hentry

/-- What `rmdir` takes away: the name and the two entries. -/
theorem Sane.names_rmdir (j : Nat) :
    ((s.removeEntry d (.plain p)).discard i).names j + (if d = j then 1 else 0) +
      (if i = j then 2 else 0) = s.names j := by
  have hremove := names_removeEntry (h.nodup d) hentry j (h.lt_of_mem hentry)
  have hset := (s.removeEntry d (.plain p)).names_setEntries [] j (h.lt_of_isDir hi)
  rw [show (s.removeEntry d (.plain p)).entries i = s.entries i from
    update_of_ne (h.ne_leaf hentry hi hempty).symm ..,
    (h.empty_perm hentry hi hempty).countP_eq] at hset
  simp only [countP_cons, countP_nil, beq_iff_eq] at hset
  rw [names_discard]
  split_ifs at hremove hset ⊢ <;> omega

/-- An empty directory is removed. -/
theorem Sane.rmdir : ((s.removeEntry d (.plain p)).discard i).Sane := by
  have hleaf := h.leaf hentry hi hempty
  obtain ⟨hsize, hroot, -, hslot, hentries, -⟩ := (s.removeEntry d (.plain p)).discard_eq i
  have hcached : (s.removeEntry d (.plain p)).Cached := h.cached
  refine ⟨(walks_discard ..).trans h.walks, ?_, ?_, ?_, cached_discard hcached i, ?_⟩
  · unfold IsTree
    rw [hroot]
    refine h.tree.removeDir hentry hi hleaf (used_discard _ i) (isDir_discard _ i) ?_
    intro d' e
    rw [hentries]
    by_cases hd' : d' = i
    · subst hd'
      simp
    · rw [update_of_ne hd', mem_removeEntry (h.nodup d) hentry]
      simp [hd']
  · rw [hentries]
    exact nodup_setEntries (nodup_removeEntry h.nodup d _) nodup_nil
  · intro j hj
    rw [hsize]
    exact h.bound j ((used_discard _ i j).mp hj).1
  · intro j hj hjd
    obtain ⟨hju, hji⟩ := (used_discard _ i j).mp hj
    have hjd' : s.isDir j = false := by
      refine Bool.eq_false_of_not_eq_true fun hbad => ?_
      rw [((s.removeEntry d (.plain p)).isDir_discard i j).mpr ⟨hbad, hji⟩] at hjd
      cases hjd
    -- the entries that go name the two directories
    have hnames := h.names_rmdir hentry hi hempty j
    rw [if_neg (ne_of_isDir (h.tree.dirs d _ hentry) hjd'), if_neg (Ne.symm hji),
      Nat.add_zero] at hnames
    rw [hnames, hslot, update_of_ne hji]
    exact h.files j hju hjd'

end

/-- What `mkdir` adds: the name and the two entries. -/
theorem Sane.names_mkdir (h : s.Sane) (hd : s.isDir d = true) (hi : s.used i = false)
    (hlt : i < s.size) (a : Attr) (pos j : Nat) :
    (((s.alloc i a).addEntry d ⟨.plain p, i⟩ pos).setEntries i [⟨.dot, i⟩, ⟨.dotdot, d⟩]).names j =
      s.names j + (if d = j then 1 else 0) + (if i = j then 2 else 0) := by
  have hdi := ne_of_used (isDir_iff.mp hd).1 hi
  have hadd := (s.alloc i a).names_addEntry ⟨.plain p, i⟩ pos j (d := d) (h.lt_of_isDir hd)
  have hset := ((s.alloc i a).addEntry d ⟨.plain p, i⟩ pos).names_setEntries
    [⟨.dot, i⟩, ⟨.dotdot, d⟩] j (d := i) hlt
  rw [show ((s.alloc i a).addEntry d ⟨.plain p, i⟩ pos).entries i = s.entries i from
    update_of_ne hdi.symm .., h.entries_file (isDir_of_free hi)] at hset
  simp only [countP_cons, countP_nil, beq_iff_eq] at hset
  have hbase : (s.alloc i a).names j = s.names j := rfl
  split_ifs at hadd hset ⊢ <;> omega

/-- A new directory. -/
theorem Sane.mkdir (h : s.Sane) (hd : s.isDir d = true) (hi : s.used i = false) (hlt : i < s.size)
    (hnew : ∀ j, ⟨.plain p, j⟩ ∉ s.entries d) (pos : Nat) (ha : a.kind = .dir) :
    (((s.alloc i a).addEntry d ⟨.plain p, i⟩ pos).setEntries i [⟨.dot, i⟩, ⟨.dotdot, d⟩]).Sane := by
  have hdi := ne_of_used (isDir_iff.mp hd).1 hi
  generalize ht : ((s.alloc i a).addEntry d ⟨.plain p, i⟩ pos).setEntries i
      [⟨.dot, i⟩, ⟨.dotdot, d⟩] = t
  have hwalks : t.walks = s.walks := by rw [← ht]; rfl
  have hsize : t.size = s.size := by rw [← ht]; rfl
  have hroot : t.root = s.root := by rw [← ht]; rfl
  have hcache : t.cache = s.cache := by rw [← ht]; rfl
  have hused : t.used = update s.used i true := by rw [← ht]; rfl
  have hslot : t.slot = update s.slot i a := by rw [← ht]; rfl
  have husedIff (j : Nat) : t.used j = true ↔ s.used j = true ∨ j = i := by
    rw [hused]
    by_cases hj : j = i
    · subst hj
      simp
    · simp [hj]
  have hdirIff (j : Nat) : t.isDir j = true ↔ s.isDir j = true ∨ j = i := by
    rw [isDir_iff, isDir_iff, hused, hslot]
    by_cases hj : j = i
    · subst hj
      simp [ha]
    · simp [hj]
  refine ⟨hwalks.trans h.walks, ?_, ?_, ?_, ?_, ?_⟩
  · unfold IsTree
    rw [hroot]
    refine h.tree.addDir hd (by rw [hi]; exact Bool.false_ne_true) hnew husedIff hdirIff ?_
    intro d' e
    rw [← ht]
    by_cases hd' : d' = i
    · subst hd'
      have hself : (((s.alloc d' a).addEntry d ⟨.plain p, d'⟩ pos).setEntries d'
          [⟨.dot, d'⟩, ⟨.dotdot, d⟩]).entries d' = [⟨.dot, d'⟩, ⟨.dotdot, d⟩] :=
        update_self ..
      rw [hself, h.entries_file (isDir_of_free hi)]
      simp [Ne.symm hdi]
    · have hother : (((s.alloc i a).addEntry d ⟨.plain p, i⟩ pos).setEntries i
          [⟨.dot, i⟩, ⟨.dotdot, d⟩]).entries d' =
          ((s.alloc i a).addEntry d ⟨.plain p, i⟩ pos).entries d' :=
        update_of_ne hd' ..
      rw [hother, mem_addEntry]
      simp only [hd', false_and, or_false]
      rfl
  · rw [← ht]
    refine nodup_setEntries (nodup_addEntry h.nodup hnew pos) ?_
    simp
  · intro j hj
    rw [hsize]
    rcases (husedIff j).mp hj with hj | rfl
    · exact h.bound j hj
    · exact hlt
  · intro j c hj
    rw [hcache] at hj
    obtain ⟨hju, hkind⟩ := h.cached j c hj
    rw [hslot, update_of_ne (ne_of_used hju hi)]
    exact ⟨(husedIff j).mpr (.inl hju), hkind⟩
  · intro j hj hjd
    have hji : j ≠ i := by
      rintro rfl
      rw [(hdirIff j).mpr (.inr rfl)] at hjd
      cases hjd
    have hju := ((husedIff j).mp hj).resolve_right hji
    have hjd' : s.isDir j = false := by
      refine Bool.eq_false_of_not_eq_true fun hbad => ?_
      rw [(hdirIff j).mpr (.inl hbad)] at hjd
      cases hjd
    have hnames := h.names_mkdir (p := p) hd hi hlt a pos j
    rw [ht, if_neg (ne_of_isDir hd hjd'), if_neg (Ne.symm hji)] at hnames
    rw [hnames, hslot, update_of_ne hji]
    exact h.files j hju hjd'

section

variable {sd si : Nat} (h : s.Sane) (hentry : ⟨.plain p, si⟩ ∈ s.entries sd)
include h hentry

/-- An entry goes from one place to another; nothing is counted differently. -/
theorem Sane.names_move {dd : Nat} (hdd : s.isDir dd = true) (n : Name) (pos j : Nat) :
    ((s.removeEntry sd (.plain p)).addEntry dd ⟨n, si⟩ pos).names j = s.names j := by
  have hremove := names_removeEntry (h.nodup sd) hentry j (h.lt_of_mem hentry)
  have hadd := (s.removeEntry sd (.plain p)).names_addEntry ⟨n, si⟩ pos j (d := dd)
    (h.lt_of_isDir hdd)
  exact hadd.trans hremove

/-- An entry moves, keeping what it names: a file anywhere, a directory within its parent. -/
theorem Sane.move {dd : Nat} (hdd : s.isDir dd = true) (hnew : ∀ j, ⟨.plain m, j⟩ ∉ s.entries dd)
    (hsame : s.isDir si = true → sd = dd) (pos : Nat) :
    ((s.removeEntry sd (.plain p)).addEntry dd ⟨.plain m, si⟩ pos).Sane := by
  have hmem (d' : Nat) (e : Entry) :
      e ∈ ((s.removeEntry sd (.plain p)).addEntry dd ⟨.plain m, si⟩ pos).entries d' ↔
        (e ∈ s.entries d' ∧ ¬ (d' = sd ∧ e.name = .plain p)) ∨ (d' = dd ∧ e = ⟨.plain m, si⟩) := by
    rw [mem_addEntry, mem_removeEntry (h.nodup sd) hentry]
  have hgone (j : Nat) : ⟨.plain m, j⟩ ∉ (s.removeEntry sd (.plain p)).entries dd := by
    intro hbad
    exact hnew j ((mem_removeEntry (h.nodup sd) hentry dd _).mp hbad).1
  refine ⟨h.walks, ?_, nodup_addEntry (nodup_removeEntry h.nodup sd _) hgone pos, h.bound,
    h.cached, ?_⟩
  · by_cases hsi : s.isDir si = true
    · obtain rfl := hsame hsi
      exact h.tree.renameDir hentry hsi hnew hmem
    · have hu := h.tree.live sd _ hentry
      have hremoved := h.tree.removeFile hentry hsi (fun _ _ hj => hj)
        (mem_removeEntry (h.nodup sd) hentry) (.inl hu)
      exact hremoved.addFile hdd hsi hgone (fun _ hj => hj) hu
        (mem_addEntry (s.removeEntry sd (.plain p)) dd _ pos)
  · intro j hj hjd
    rw [h.names_move hentry hdd]
    exact h.files j hj hjd

/-- An entry taken out and put back, perhaps elsewhere in its directory. -/
theorem Sane.putBack (pos : Nat) :
    ((s.removeEntry sd (.plain p)).addEntry sd ⟨.plain p, si⟩ pos).Sane := by
  have hgone (j : Nat) : ⟨.plain p, j⟩ ∉ (s.removeEntry sd (.plain p)).entries sd := by
    intro hbad
    exact ((mem_removeEntry (h.nodup sd) hentry sd _).mp hbad).2 ⟨rfl, rfl⟩
  have hmem : (fun d' e =>
      e ∈ ((s.removeEntry sd (.plain p)).addEntry sd ⟨.plain p, si⟩ pos).entries d') =
      fun d' e => e ∈ s.entries d' := by
    funext d' e
    rw [mem_addEntry, mem_removeEntry (h.nodup sd) hentry, eq_iff_iff]
    constructor
    · rintro (⟨he, -⟩ | ⟨rfl, rfl⟩)
      · exact he
      · exact hentry
    · intro he
      by_cases hthis : d' = sd ∧ e.name = .plain p
      · obtain ⟨rfl, hname⟩ := hthis
        exact .inr ⟨rfl, entry_eq (h.nodup d') he hentry hname⟩
      · exact .inl ⟨he, hthis⟩
  refine ⟨h.walks, ?_, nodup_addEntry (nodup_removeEntry h.nodup sd _) hgone pos, h.bound,
    h.cached, ?_⟩
  · unfold IsTree
    rw [hmem]
    exact h.tree
  · intro j hj hjd
    rw [h.names_move hentry (h.tree.dirs sd _ hentry)]
    exact h.files j hj hjd

end

end Operations

end NameSys

end ArcKernel.Names
