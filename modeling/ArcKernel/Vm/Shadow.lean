import ArcKernel.Foundation.Run
import ArcKernel.Vm.Fault

/-!
# Private pages of shadow objects

A shadow marks the pages it has copied in a bitmap but does not remember where the
copies are.  The first fault on a page of a shadow returns a page nobody else ever
gets; a later one asks the parent again and returns the parent's page.

`FaultClean` excludes the later faults, and the pages that come from elsewhere: a
physical object or a user pager may supply any page there is, also one the page
allocator hands out as a private copy.  Under it the copies are private.
-/

namespace ArcKernel.Vm

open ArcKernel.Foundation Function List Option

variable {m : FaultMem} {res : FaultResult} {s' : FaultSys} {pages : List Nat}
    {created fuel index o newCap p parent : Nat} {objs : Nat → Option VmObject} {obj : VmObject}
    {block : Option Nat} {mems : Nat → FaultMem} {offset size : UInt64}

/-! ## The property -/

/-- What the record of returned pages says about private copies.

* `stable`: after a fault on a page of a shadow has made a private copy, every
  fault on that page of that shadow returns it.
* `separate`: a page that is the private copy of some shadow is never returned by
  another object. -/
structure Isolated (log : List PageReturn) : Prop where
  stable : log.Pairwise fun a b =>
    a.copied = true → b.obj = a.obj → b.index = a.index → b.page = a.page
  separate : ∀ a ∈ log, a.copied = true → ∀ b ∈ log, b.page = a.page → b.obj = a.obj

/-! ## Clean faults -/

/-- The largest size for which the number of pages fits an `int`. -/
def shadowSizeMax : Nat := (2 ^ 31 - 1) * 4096

/-- No fault of the chain reaches a page its shadow has copied, and the pages of the
page allocator, for which `device` is false, are not supplied by anybody else. -/
def FaultClean (device : Nat → Bool) : Nat → FaultSys → Nat → UInt64 → (Nat → FaultMem) → Prop
  | 0, _, _, _, _ => True
  | fuel + 1, s, o, offset, mems =>
      (∀ p, (mems 0).page = some p → device p = false) ∧
      ∀ obj, s.mem.objects o = some obj → offset < obj.size →
        match obj.kind with
        | .anon => True
        | .shared _ => True
        | .phys physBase => device (physPage physBase offset) = true
        | .userPaged _ => 0 ≤ (mems 0).pager.1 → device (mems 0).pager.2 = true
        | .shadow parent copiedMap =>
            obj.size.toNat ≤ shadowSizeMax ∧ copiedMap.getD (pageIndex offset) false = false ∧
              FaultClean device fuel s parent offset fun n => mems (n + 1)

def FaultCall.Clean (device : Nat → Bool) (s : FaultSys) : FaultCall → Prop
  | .fault o offset mems => FaultClean device (s.created + 1) s o offset mems
  | _ => True

/-! ## The invariant -/

/-- The shadow has the page marked as copied. -/
def Marked (objs : Nat → Option VmObject) (o index : Nat) : Prop :=
  ∃ obj parent copiedMap, objs o = some obj ∧ obj.kind = .shadow parent copiedMap ∧
    copiedMap.getD index false = true

/-- The pages in the caches of shared objects. -/
def Cached (objs : Nat → Option VmObject) (p : Nat) : Prop :=
  p ≠ 0 ∧ ∃ o obj pages, objs o = some obj ∧ obj.kind = .shared pages ∧ p ∈ pages

/-- The table: chains of shadows go down in rank, and bitmaps cover their objects. -/
structure TableInv (rank : Nat → Nat) (created : Nat) (objs : Nat → Option VmObject) : Prop where
  below : ∀ o obj parent copiedMap, objs o = some obj → obj.kind = .shadow parent copiedMap →
    rank parent < rank o
  parents : ∀ o obj parent copiedMap, objs o = some obj → obj.kind = .shadow parent copiedMap →
    ∃ pobj, objs parent = some pobj
  bounded : ∀ o obj, objs o = some obj → rank o < created
  covers : ∀ o obj parent copiedMap, objs o = some obj → obj.kind = .shadow parent copiedMap →
    obj.size.toNat ≤ shadowSizeMax → obj.size.toNat ≤ copiedMap.length * 4096

structure FaultSys.Inv (device : Nat → Bool) (rank : Nat → Nat) (s : FaultSys) : Prop where
  table : TableInv rank s.created s.mem.objects
  managed : ∀ p ∈ s.taken, device p = false
  logged : ∀ r ∈ s.log, r.page ∈ s.taken ∨ device r.page = true
  cached : ∀ p, Cached s.mem.objects p → p ∈ s.taken ∧ ∀ r ∈ s.log, r.copied = true → r.page ≠ p
  own : ∀ r ∈ s.log, r.copied = true → r.page ∈ s.taken ∧ Marked s.mem.objects r.obj r.index
  isolated : Isolated s.log

section Step

variable {device : Nat → Bool} {rank : Nat → Nat} {s : FaultSys}

/-- A page that has just been handed out. -/
structure FreshPage (device : Nat → Bool) (s : FaultSys) (p : Nat) : Prop where
  taken : p ∈ s.taken
  managed : device p = false
  unlogged : ∀ r ∈ s.log, r.page ≠ p
  uncached : ¬ Cached s.mem.objects p
  nonzero : p ≠ 0

theorem newPage_spec {r : Option Nat} (h : s.Inv device rank)
    (hm : ∀ p, m.page = some p → device p = false) (hnew : newPage s m = some (r, s')) :
    s'.Inv device rank ∧ s'.mem.objects = s.mem.objects ∧ s'.created = s.created ∧
      s'.log = s.log ∧ ∀ p, r = some p → FreshPage device s' p := by
  rw [newPage] at hnew
  split at hnew
  · cases hnew
    exact ⟨h, rfl, rfl, rfl, by simp⟩
  rename_i p hp
  split at hnew
  · simp at hnew
  rename_i hfree
  rw [not_or] at hfree
  split at hnew
  · cases hnew
    have hne : ∀ q ∈ s.taken, q ≠ p := fun q hq hqp => hfree.2 (hqp ▸ hq)
    refine ⟨⟨h.table, ?_, ?_, ?_, ?_, h.isolated⟩, rfl, rfl, rfl, ?_⟩
    · intro q hq
      rcases mem_cons.mp hq with rfl | hq
      · exact hm q hp
      · exact h.managed q hq
    · intro r hr
      exact (h.logged r hr).imp_left (mem_cons_of_mem _)
    · intro q hq
      obtain ⟨htaken, hlog⟩ := h.cached q hq
      exact ⟨mem_cons_of_mem _ htaken, hlog⟩
    · intro r hr hcopied
      obtain ⟨htaken, hmarked⟩ := h.own r hr hcopied
      exact ⟨mem_cons_of_mem _ htaken, hmarked⟩
    · rintro q ⟨⟩
      refine ⟨mem_cons_self, hm p hp, ?_, ?_, hfree.1⟩
      · intro r hr hpage
        rcases h.logged r hr with ht | hd
        · exact hne r.page ht hpage
        · rw [hpage, hm p hp] at hd
          simp at hd
      · intro hcached
        exact hne p (h.cached p hcached).1 rfl
  · cases hnew
    exact ⟨{ h with }, rfl, rfl, rfl, by simp⟩

theorem mem_record {a r : PageReturn} (h : a ∈ (s.record r).log) : a ∈ s.log ∨ a = r :=
  (mem_append.mp h).imp_right mem_singleton.mp

/-- A page that is not marked has not been copied before. -/
theorem FaultSys.Inv.first (h : s.Inv device rank) (hunmarked : ¬ Marked s.mem.objects o index) :
    ∀ a ∈ s.log, a.copied = true → a.obj = o → a.index ≠ index := by
  rintro a ha hc rfl rfl
  exact hunmarked (h.own a ha hc).2

/-- A page is returned that its object has not copied before; if it is a private copy, it is a
new one. -/
theorem record_inv {r : PageReturn} (h : s.Inv device rank)
    (hpage : r.page ∈ s.taken ∨ device r.page = true)
    (hfirst : ∀ a ∈ s.log, a.copied = true → a.obj = r.obj → a.index ≠ r.index)
    (hother : ∀ a ∈ s.log, a.copied = true → a.page ≠ r.page)
    (hcopy : r.copied = true → r.page ∈ s.taken ∧ Marked s.mem.objects r.obj r.index ∧
      ¬ Cached s.mem.objects r.page ∧ ∀ a ∈ s.log, a.page ≠ r.page) :
    (s.record r).Inv device rank := by
  refine ⟨h.table, h.managed, fun a ha => ?_, fun p hp => ⟨(h.cached p hp).1, fun a ha hc => ?_⟩,
    fun a ha hc => ?_, ⟨?_, fun a ha hc b hb hsame => ?_⟩⟩
  · rcases mem_record ha with ha | rfl
    · exact h.logged a ha
    · exact hpage
  · rcases mem_record ha with ha | rfl
    · exact (h.cached p hp).2 a ha hc
    · rintro rfl
      exact (hcopy hc).2.2.1 hp
  · rcases mem_record ha with ha | rfl
    · exact h.own a ha hc
    · exact ⟨(hcopy hc).1, (hcopy hc).2.1⟩
  · refine pairwise_append.mpr ⟨h.isolated.stable, pairwise_singleton _ _, ?_⟩
    intro a ha b hb hc hobj hindex
    rw [mem_singleton.mp hb] at hobj hindex
    exact absurd hindex.symm (hfirst a ha hc hobj.symm)
  · rcases mem_record ha with hold | rfl <;> rcases mem_record hb with hold' | rfl
    · exact h.isolated.separate a hold hc b hold' hsame
    · exact absurd hsame.symm (hother a hold hc)
    · exact absurd hsame ((hcopy hc).2.2.2 b hold')
    · rfl

/-! ## Changing an object -/

theorem not_marked_of_kind (hobj : objs o = some obj) (hkind : ∀ p m, obj.kind ≠ .shadow p m)
    (index : Nat) : ¬ Marked objs o index := by
  rintro ⟨obj', p, m, hobj', hk, -⟩
  rw [hobj, some.injEq] at hobj'
  exact hkind p m (hobj' ▸ hk)

/-- The table when an object is replaced by one of the same size and shape. -/
theorem TableInv.replace {obj' : VmObject} (h : TableInv rank created objs)
    (hobj : objs o = some obj) (hsize : obj'.size = obj.size)
    (hshadow : ∀ p m', obj'.kind = .shadow p m' →
      ∃ m, obj.kind = .shadow p m ∧ m'.length = m.length) :
    TableInv rank created (update objs o (some obj')) := by
  have hback : ∀ {x y p m'}, update objs o (some obj') x = some y → y.kind = .shadow p m' →
      ∃ y' m, objs x = some y' ∧ y'.kind = .shadow p m ∧ m'.length = m.length ∧
        y.size = y'.size := by
    intro x y p m' hx hk
    rcases update_cases hx with ⟨rfl, ⟨⟩⟩ | ⟨-, hx⟩
    · obtain ⟨m, hk, hlen⟩ := hshadow p m' hk
      exact ⟨obj, m, hobj, hk, hlen, hsize⟩
    · exact ⟨y, m', hx, hk, rfl, rfl⟩
  constructor
  · intro x y p m' hx hk
    obtain ⟨y', m, hx, hk, -⟩ := hback hx hk
    exact h.below x y' p m hx hk
  · intro x y p m' hx hk
    obtain ⟨y', m, hx, hk, -⟩ := hback hx hk
    obtain ⟨pobj, hpobj⟩ := h.parents x y' p m hx hk
    by_cases hpo : p = o
    · exact ⟨obj', hpo ▸ update_self ..⟩
    · exact ⟨pobj, by rwa [update_of_ne hpo]⟩
  · intro x y hx
    rcases update_cases hx with ⟨rfl, -⟩ | ⟨-, hx⟩
    · exact h.bounded x obj hobj
    · exact h.bounded x y hx
  · intro x y p m' hx hk
    obtain ⟨y', m, hx, hk, hlen, hsize⟩ := hback hx hk
    rw [hlen, hsize]
    exact h.covers x y' p m hx hk

/-- An object is put in the table: its cache holds no private copies, and it keeps the marks of
the one it replaces. -/
theorem setObject_inv {rank' : Nat → Nat} {created' : Nat} (obj' : VmObject)
    (h : s.Inv device rank)
    (htable : TableInv rank' created' (update s.mem.objects o (some obj')))
    (hpages : ∀ pages, obj'.kind = .shared pages → ∀ p ∈ pages, p ≠ 0 →
      p ∈ s.taken ∧ ∀ r ∈ s.log, r.copied = true → r.page ≠ p)
    (hmarks : ∀ i, Marked s.mem.objects o i → Marked (update s.mem.objects o (some obj')) o i) :
    ({ s with mem := s.mem.setObject o (some obj'), created := created' } : FaultSys).Inv
      device rank' := by
  refine ⟨htable, h.managed, h.logged, ?_, fun r hr hc => ⟨(h.own r hr hc).1, ?_⟩, h.isolated⟩
  · rintro p ⟨hp0, x, y, ps, hx, hk, hp⟩
    rcases update_cases hx with ⟨rfl, ⟨⟩⟩ | ⟨-, hx⟩
    · exact hpages ps hk p hp hp0
    · exact h.cached p ⟨hp0, x, y, ps, hx, hk, hp⟩
  · have hmarked := (h.own r hr hc).2
    by_cases hro : r.obj = o
    · rw [hro] at hmarked ⊢
      exact hmarks _ hmarked
    · obtain ⟨y, p, m, hy, hk, hbit⟩ := hmarked
      exact ⟨y, p, m, (update_of_ne hro ..).trans hy, hk, hbit⟩

/-- The cache of a shared object gets pages that are no private copies. -/
theorem setShared_inv {o : Nat} {obj : VmObject} {pages pages' : List Nat}
    (h : s.Inv device rank) (hobj : s.mem.objects o = some obj) (hkind : obj.kind = .shared pages)
    (hpages : ∀ p ∈ pages', p ≠ 0 → p ∈ pages ∨
      p ∈ s.taken ∧ ∀ r ∈ s.log, r.copied = true → r.page ≠ p) :
    (s.setKind o obj (.shared pages')).Inv device rank := by
  refine setObject_inv _ h (h.table.replace hobj rfl (by simp)) ?_
    fun i hm => absurd hm (not_marked_of_kind hobj (by simp [hkind]) i)
  rintro _ ⟨⟩ p hp hp0
  exact (hpages p hp hp0).elim (fun hold => h.cached p ⟨hp0, o, obj, pages, hobj, hkind, hold⟩) id

/-- A shadow marks a page as copied and returns its fresh copy. -/
theorem copy_inv {copiedMap : List Bool} (h : s.Inv device rank) (hobj : s.mem.objects o = some obj)
    (hkind : obj.kind = .shadow parent copiedMap) (hindex : index < copiedMap.length)
    (hclear : copiedMap.getD index false = false) (hfresh : FreshPage device s p) :
    ((s.setKind o obj (.shadow parent (copiedMap.set index true))).record
      ⟨o, index, p, true⟩).Inv device rank := by
  have hbit : ∀ i, (copiedMap.set index true).getD i false =
      if i = index then true else copiedMap.getD i false := by
    intro i
    rw [getD_eq_getElem?_getD, getD_eq_getElem?_getD, List.getElem?_set]
    by_cases hi : index = i
    · rw [if_pos hi, if_pos hi.symm, if_pos (hi ▸ hindex)]
      rfl
    · rw [if_neg hi, if_neg (Ne.symm hi)]
  have hold : ∀ i, Marked s.mem.objects o i → copiedMap.getD i false = true := by
    rintro i ⟨y, q, m, hy, hk, hset⟩
    cases hobj.symm.trans hy
    cases hkind.symm.trans hk
    exact hset
  have hmarked : ∀ i, copiedMap.getD i false = true ∨ i = index → Marked (update s.mem.objects o
      (some { obj with kind := .shadow parent (copiedMap.set index true) })) o i := by
    refine fun i hi => ⟨_, _, _, update_self .., rfl, ?_⟩
    rw [hbit]
    split
    · rfl
    · exact hi.resolve_right ‹_›
  have hset := setObject_inv { obj with kind := .shadow parent (copiedMap.set index true) } h
    (h.table.replace hobj rfl fun q m hk => by cases hk; exact ⟨copiedMap, hkind, length_set ..⟩)
    nofun fun i hm => hmarked i (.inl (hold i hm))
  have hunmarked : ¬ Marked s.mem.objects o index := fun hm =>
    Bool.false_ne_true (hclear.symm.trans (hold index hm))
  refine record_inv hset (.inl hfresh.taken) (h.first hunmarked)
    (fun a ha _ => hfresh.unlogged a ha)
    fun _ => ⟨hfresh.taken, hmarked index (.inr rfl), ?_, hfresh.unlogged⟩
  rintro ⟨hq0, x, y, ps, hx, hk, hq⟩
  rcases update_cases hx with ⟨rfl, ⟨⟩⟩ | ⟨-, hx⟩
  · cases hk
  · exact hfresh.uncached ⟨hq0, x, y, ps, hx, hk, hq⟩

/-! ## One fault -/

/-- What a fault on `o` leaves: the invariant, and every object above `o`. -/
structure FaultSpec (device : Nat → Bool) (rank : Nat → Nat) (s : FaultSys) (o : Nat)
    (s' : FaultSys) : Prop where
  inv : s'.Inv device rank
  above : ∀ x, rank o < rank x → s'.mem.objects x = s.mem.objects x
  created : s'.created = s.created

theorem update_above {x : Nat} {y : Option VmObject}
    (h : rank o < rank x) : update objs o y x = objs x := by
  refine update_of_ne ?_ _ _
  rintro rfl
  omega

theorem anonFault_spec (h : s.Inv device rank) (hobj : s.mem.objects o = some obj)
    (hkind : obj.kind = .anon) (hm : ∀ p, m.page = some p → device p = false)
    (hfault : anonFault s o index m = some (res, s')) : FaultSpec device rank s o s' := by
  rw [anonFault] at hfault
  split at hfault
  · simp at hfault
  · rename_i s1 hnew
    cases hfault
    obtain ⟨hinv, hobjs, hcreated, -, -⟩ := newPage_spec h hm hnew
    exact ⟨hinv, fun x _ => by rw [hobjs], hcreated⟩
  rename_i p s1 hnew
  cases hfault
  obtain ⟨hinv, hobjs, hcreated, -, hfresh⟩ := newPage_spec h hm hnew
  have hp := hfresh p rfl
  refine ⟨record_inv hinv (.inl hp.taken) (hinv.first ?_) (fun a ha _ => hp.unlogged a ha) nofun,
    fun x _ => congrFun hobjs x, hcreated⟩
  rw [hobjs]
  exact not_marked_of_kind hobj (by simp [hkind]) index

theorem growCapacity_gt {cap : Nat} (h : growCapacity index fuel newCap = some cap) :
    index < cap := by
  induction fuel generalizing newCap with
  | zero => simp [growCapacity] at h
  | succ fuel ih =>
    rw [growCapacity] at h
    split at h
    · exact ih h
    · cases h
      omega

/-- The cache covers the index; cells that are 0 may have been added. -/
theorem sharedCache_grown {pages' : List Nat} {cache : Bool}
    (h : sharedCache pages index cache = some (some pages')) :
    index < pages'.length ∧ ∃ n, pages' = pages ++ replicate n 0 := by
  rw [sharedCache] at h
  split at h
  · dsimp only at h
    split at h
    · simp at h
    rename_i hcap
    have := growCapacity_gt hcap
    split at h
    · cases h
      exact ⟨by simp; omega, _, rfl⟩
    · simp at h
  · cases h
    exact ⟨by omega, 0, by simp⟩

theorem getD_mem (h : pages.getD index 0 ≠ 0) : pages.getD index 0 ∈ pages := by
  have hlt : index < pages.length := by
    by_contra hge
    rw [getD_eq_getElem?_getD, List.getElem?_eq_none (by omega)] at h
    exact h rfl
  rw [getD_eq_getElem?_getD, List.getElem?_eq_getElem hlt]
  exact getElem_mem hlt

theorem sharedFault_spec (h : s.Inv device rank) (hobj : s.mem.objects o = some obj)
    (hkind : obj.kind = .shared pages) (hm : ∀ p, m.page = some p → device p = false)
    (hfault : sharedFault s o obj pages index m = some (res, s')) :
    FaultSpec device rank s o s' := by
  rw [sharedFault] at hfault
  split at hfault
  · simp at hfault
  · cases hfault
    exact ⟨h, fun _ _ => rfl, rfl⟩
  rename_i pages' hcache
  have hold : ∀ p ∈ pages', p ≠ 0 → p ∈ pages := by
    obtain ⟨-, n, rfl⟩ := sharedCache_grown hcache
    intro p hp hp0
    exact (mem_append.mp hp).resolve_right fun hz => hp0 (eq_of_mem_replicate hz)
  -- the cache has grown, or not; its pages are the same
  have hgrown := @setShared_inv device rank s o obj pages pages' h hobj hkind
    fun p hp hp0 => .inl (hold p hp hp0)
  have hobj' : (s.setKind o obj (.shared pages')).mem.objects o =
      some { obj with kind := .shared pages' } := update_self ..
  have hunmarked : ∀ i, ¬ Marked (s.setKind o obj (.shared pages')).mem.objects o i :=
    not_marked_of_kind hobj' (by simp)
  dsimp only at hfault
  split at hfault
  · rename_i hne
    cases hfault
    have hcached : Cached (s.setKind o obj (.shared pages')).mem.objects (pages'.getD index 0) :=
      ⟨hne, o, _, pages', hobj', rfl, getD_mem hne⟩
    obtain ⟨htaken, hlog⟩ := hgrown.cached _ hcached
    exact ⟨record_inv hgrown (.inl htaken) (hgrown.first (hunmarked index)) hlog nofun,
      fun x hx => update_above hx, rfl⟩
  split at hfault
  · simp at hfault
  · rename_i s1 hnew
    cases hfault
    obtain ⟨hinv, hobjs, hcreated, -, -⟩ := newPage_spec hgrown hm hnew
    exact ⟨hinv, fun x hx => (congrFun hobjs x).trans (update_above hx), hcreated⟩
  rename_i p s1 hnew
  cases hfault
  obtain ⟨hinv, hobjs, hcreated, -, hfresh⟩ := newPage_spec hgrown hm hnew
  have hp := hfresh p rfl
  have hobj1 : s1.mem.objects o = some { obj with kind := .shared pages' } := by rw [hobjs, hobj']
  have hset := @setShared_inv device rank s1 o { obj with kind := .shared pages' } pages'
    (pages'.set index p) hinv hobj1 rfl fun q hq hq0 => by
      rcases mem_or_eq_of_mem_set hq with hq | rfl
      · exact .inl hq
      · exact .inr ⟨hp.taken, fun r hr _ => hp.unlogged r hr⟩
  refine ⟨record_inv hset (.inl hp.taken) (hset.first ?_) (fun a ha _ => hp.unlogged a ha) nofun,
    fun x hx => ?_, hcreated⟩
  · exact not_marked_of_kind (update_self ..) (by simp) index
  · exact (update_above hx).trans ((congrFun hobjs x).trans (update_above hx))

/-- A page that does not come from the page allocator. -/
theorem deviceFault_spec (h : s.Inv device rank) (hobj : s.mem.objects o = some obj)
    (hkind : ∀ p m, obj.kind ≠ .shadow p m) (hdev : device p = true) :
    FaultSpec device rank s o (s.record ⟨o, index, p, false⟩) := by
  refine ⟨record_inv h (.inr hdev) (h.first (not_marked_of_kind hobj hkind _)) ?_ nofun,
    fun _ _ => rfl, rfl⟩
  rintro a ha hc rfl
  have := h.managed _ (h.own a ha hc).1
  rw [hdev] at this
  simp at this

/-- A clean fault keeps the invariant, at every level of the chain. -/
theorem vmObjectFault_spec (h : s.Inv device rank) (hclean : FaultClean device fuel s o offset mems)
    (hfault : vmObjectFault fuel s o offset mems = some (res, s')) :
    FaultSpec device rank s o s' := by
  induction fuel generalizing o mems res s' with
  | zero => simp [vmObjectFault] at hfault
  | succ fuel ih =>
    rw [vmObjectFault] at hfault
    obtain ⟨hm, hclean⟩ := hclean
    split at hfault
    · simp at hfault
    rename_i obj hobj
    split at hfault
    · cases hfault
      exact ⟨h, fun _ _ => rfl, rfl⟩
    rename_i hin
    have hoff : offset < obj.size := UInt64.not_le.mp hin
    have hclean := hclean obj hobj hoff
    dsimp only at hfault
    split at hfault
    · rename_i hkind
      exact anonFault_spec h hobj hkind hm hfault
    · rename_i physBase hkind
      rw [hkind] at hclean
      cases hfault
      exact deviceFault_spec h hobj (by simp [hkind]) hclean
    · rename_i pages hkind
      exact sharedFault_spec h hobj hkind hm hfault
    · rename_i port hkind
      rw [hkind] at hclean
      rw [userPagedFault] at hfault
      split at hfault
      · cases hfault
        exact ⟨h, fun _ _ => rfl, rfl⟩
      · cases hfault
        exact deviceFault_spec h hobj (by simp [hkind]) (hclean (by omega))
    · rename_i parent copiedMap hkind
      rw [hkind] at hclean
      obtain ⟨hsize, hbit, hparent⟩ := hclean
      have hbelow := h.table.below o obj parent copiedMap hobj hkind
      split at hfault
      · simp at hfault
      · rename_i code s1 hup
        have spec := ih hparent hup
        cases hfault
        exact ⟨spec.inv, fun x hx => spec.above x (by omega), spec.created⟩
      rename_i pp s1 hup
      have spec := ih hparent hup
      rw [hbit] at hfault
      simp only [Bool.false_eq_true, if_false] at hfault
      split at hfault
      · simp at hfault
      · rename_i s2 hnew
        obtain ⟨hinv, hobjs, hcreated, -, -⟩ := newPage_spec spec.inv hm hnew
        cases hfault
        exact ⟨hinv, fun x hx => (congrFun hobjs x).trans (spec.above x (by omega)),
          hcreated.trans spec.created⟩
      rename_i p s2 hnew
      obtain ⟨hinv, hobjs, hcreated, -, hfresh⟩ := newPage_spec spec.inv hm hnew
      -- the fault of the parent has left the shadow alone
      have hobj2 : s2.mem.objects o = some obj := by rw [hobjs, spec.above o hbelow, hobj]
      have hindex : pageIndex offset < copiedMap.length := by
        have hcover := h.table.covers o obj parent copiedMap hobj hkind hsize
        have hlt : offset.toNat < obj.size.toNat := UInt64.lt_iff_toNat_lt.mp hoff
        rw [pageIndex]
        omega
      cases hfault
      refine ⟨copy_inv hinv hobj2 hkind hindex hbit (hfresh p rfl), fun x hx => ?_,
        hcreated.trans spec.created⟩
      exact (update_above hx).trans ((congrFun hobjs x).trans (spec.above x (by omega)))

/-! ## Creation -/

/-- The bitmap of a shadow covers its parent, up to the largest size. -/
theorem mapNwords_covers (wide : Bool) (h : size.toNat ≤ shadowSizeMax) :
    size.toNat ≤ mapNwords (wordBits wide) size * wordBits wide * 4096 := by
  have hadd : (size + 4095).toNat = size.toNat + 4095 := by
    rw [UInt64.toNat_add, Nat.mod_eq_of_lt]
    · rfl
    · show size.toNat + 4095 < 2 ^ 64
      rw [shadowSizeMax] at h
      omega
  have hbits : 32 ≤ wordBits wide ∧ wordBits wide ≤ 64 := by cases wide <;> decide
  rw [mapNwords, hadd]
  generalize wordBits wide = bits at hbits
  -- nothing wraps around
  generalize hpages : (size.toNat + 4095) / 4096 = pages
  have hle : pages < 2 ^ 31 := by
    rw [shadowSizeMax] at h
    omega
  have hpow : 2 ^ 32 ≤ 2 ^ bits := Nat.pow_le_pow_right (by decide) hbits.1
  have hdiv : (pages + bits - 1) / bits ≤ pages + bits - 1 := Nat.div_le_self _ _
  rw [Nat.mod_eq_of_lt (show pages < 2 ^ 32 by omega), if_pos hle,
    Nat.mod_eq_of_lt (show pages + bits - 1 < 2 ^ bits by omega),
    Nat.mod_eq_of_lt (show (pages + bits - 1) / bits < 2 ^ 32 by omega)]
  have hround : pages ≤ (pages + bits - 1) / bits * bits := by
    have hdm := Nat.div_add_mod (pages + bits - 1) bits
    have hlt := Nat.mod_lt (pages + bits - 1) (show 0 < bits by omega)
    rw [Nat.mul_comm] at hdm
    omega
  omega

/-- A new object in an unused block. -/
theorem TableInv.insert (h : TableInv rank created objs) (hfree : objs o = none)
    (hshadow : ∀ p m, obj.kind = .shadow p m → (∃ pobj, objs p = some pobj) ∧
      (obj.size.toNat ≤ shadowSizeMax → obj.size.toNat ≤ m.length * 4096)) :
    TableInv (update rank o created) (created + 1) (update objs o (some obj)) := by
  have hne : ∀ {p pobj}, objs p = some pobj → p ≠ o := by
    rintro p pobj hp rfl
    rw [hfree] at hp
    simp at hp
  constructor
  · intro x y p m hx hk
    rcases update_cases hx with ⟨rfl, ⟨⟩⟩ | ⟨hxo, hx⟩
    · obtain ⟨⟨pobj, hpobj⟩, -⟩ := hshadow p m hk
      rw [update_self, update_of_ne (hne hpobj)]
      exact h.bounded p pobj hpobj
    · obtain ⟨pobj, hpobj⟩ := h.parents x y p m hx hk
      rw [update_of_ne hxo, update_of_ne (hne hpobj)]
      exact h.below x y p m hx hk
  · intro x y p m hx hk
    have hparent : ∃ pobj, objs p = some pobj := by
      rcases update_cases hx with ⟨rfl, ⟨⟩⟩ | ⟨-, hx⟩
      · exact (hshadow p m hk).1
      · exact h.parents x y p m hx hk
    obtain ⟨pobj, hpobj⟩ := hparent
    exact ⟨pobj, by rwa [update_of_ne (hne hpobj)]⟩
  · intro x y hx
    by_cases hxo : x = o
    · rw [hxo, update_self]
      omega
    · rw [update_of_ne hxo] at hx ⊢
      have := h.bounded x y hx
      omega
  · intro x y p m hx hk
    rcases update_cases hx with ⟨rfl, ⟨⟩⟩ | ⟨-, hx⟩
    · exact (hshadow p m hk).2
    · exact h.covers x y p m hx hk

/-- The state after the table got a new object without pages; the pages and the
record are untouched. -/
theorem insert_inv {o : Nat} {obj : VmObject} (h : s.Inv device rank)
    (hfree : s.mem.objects o = none) (hempty : ∀ pages, obj.kind = .shared pages → pages = [])
    (hshadow : ∀ p m, obj.kind = .shadow p m → (∃ pobj, s.mem.objects p = some pobj) ∧
      (obj.size.toNat ≤ shadowSizeMax → obj.size.toNat ≤ m.length * 4096)) :
    ({ s with mem := s.mem.setObject o (some obj), created := s.created + 1 } : FaultSys).Inv
      device (update rank o s.created) := by
  refine setObject_inv _ h (h.table.insert hfree hshadow) (fun ps hk p hp => ?_) ?_
  · rw [hempty ps hk] at hp
    cases hp
  · rintro i ⟨y, -, -, hy, -⟩
    cases hfree.symm.trans hy

/-- The count of an object does not matter. -/
theorem setCount_inv {n : Nat} (h : s.Inv device rank) (hobj : s.mem.objects o = some obj) :
    ({ s with mem := s.mem.setObject o (some { obj with refCount := n }) } : FaultSys).Inv
      device rank := by
  refine setObject_inv _ h (h.table.replace hobj rfl fun p m hk => ⟨m, hk, rfl⟩)
    (fun ps hk p hp hp0 => h.cached p ⟨hp0, o, obj, ps, hobj, hk, hp⟩) ?_
  rintro i ⟨y, p, m, hy, hk, hbit⟩
  cases hobj.symm.trans hy
  exact ⟨_, p, m, update_self .., hk, hbit⟩

theorem count_created_inv (h : s.Inv device rank) :
    ({ s with created := s.created + 1 } : FaultSys).Inv device rank := by
  refine { h with table := { h.table with bounded := ?_ } }
  intro x y hx
  have := h.table.bounded x y hx
  dsimp only
  omega

theorem fresh_spec (h : s.fresh (some o) = true) : s.mem.objects o = none := by
  simp only [FaultSys.fresh, Bool.and_eq_true, isNone_iff_eq_none] at h
  exact h.2

/-- A constructor other than that of shadows. -/
theorem alloc_inv {kind : VmObjKind} (h : s.Inv device rank)
    (hempty : ∀ pages, kind = .shared pages → pages = []) (hplain : ∀ p m, kind ≠ .shadow p m)
    (hstep : s.afterCreate block (vmObjectAlloc s.mem kind size block) = some s') :
    ∃ rank', s'.Inv device rank' := by
  obtain ⟨hfresh, rfl⟩ := of_guard hstep
  unfold vmObjectAlloc
  split
  · exact ⟨rank, count_created_inv h⟩
  · cases block with
    | none => exact ⟨rank, count_created_inv h⟩
    | some o =>
      exact ⟨_, insert_inv h (fresh_spec hfresh) hempty fun p m hk => absurd hk (hplain p m)⟩

theorem createShadow_inv {wide : Bool} {bitmap : Bool} (h : s.Inv device rank)
    (hstep : s.afterCreate block
      (vmObjectCreateShadow (wordBits wide) s.mem parent block bitmap) = some s') :
    ∃ rank', s'.Inv device rank' := by
  obtain ⟨hfresh, rfl⟩ := of_guard hstep
  have hblock : ∀ o, block = some o → s.mem.objects o = none := fun o ho => fresh_spec (ho ▸ hfresh)
  rcases vmObjectCreateShadow_cases (wordBits wide) s.mem parent block bitmap hblock with
    heq | ⟨pobj, o, hp, ho, hpo, heq⟩
  · rw [heq]
    exact ⟨rank, count_created_inv h⟩
  rw [heq]
  have hretained := setCount_inv (n := pobj.refCount + 1) h hp
  refine ⟨_, insert_inv (o := o) hretained ?_ (by simp) ?_⟩
  · exact (update_of_ne hpo.symm ..).trans (hblock o ho)
  · rintro p m ⟨⟩
    refine ⟨⟨_, update_self ..⟩, fun hsize => ?_⟩
    rw [length_replicate]
    exact mapNwords_covers wide hsize

/-! ## Faults return -/

/-- The doubling of a capacity ends for the indices an `int` can hold. -/
theorem growCapacity_isSome (hindex : index < 2 ^ 31)
    (hpos : 0 < newCap) (hreach : index < newCap * 2 ^ fuel) :
    ∃ cap, growCapacity index (fuel + 1) newCap = some cap := by
  induction fuel generalizing newCap with
  | zero =>
    rw [growCapacity, if_neg (by omega)]
    exact ⟨newCap, rfl⟩
  | succ fuel ih =>
    rw [growCapacity]
    split
    · rw [Nat.mod_eq_of_lt (by omega)]
      refine ih (by omega) ?_
      rw [Nat.mul_assoc, ← Nat.pow_succ']
      exact hreach
    · exact ⟨newCap, rfl⟩

theorem sharedCache_isSome {pages : List Nat} {index : Nat} (cache : Bool)
    (hindex : index < 2 ^ 31) : ∃ r, sharedCache pages index cache = some r := by
  rw [sharedCache]
  split
  · have hstart : ∃ cap, growCapacity index 33
        (if pages.length = 0 then 64 else pages.length * 2 % 2 ^ 32) = some cap := by
      split
      all_goals exact growCapacity_isSome hindex (by omega) (by omega)
    obtain ⟨cap, hcap⟩ := hstart
    simp only [hcap]
    split
    all_goals exact ⟨_, rfl⟩
  · exact ⟨_, rfl⟩

/-- The pages the page allocator hands out during one fault are unused and
different from each other. -/
structure PagesFresh (taken : List Nat) (mems : Nat → FaultMem) : Prop where
  unused : ∀ n p, (mems n).page = some p → p ≠ 0 ∧ p ∉ taken
  distinct : ∀ n n' p, (mems n).page = some p → (mems n').page = some p → n = n'

/-- What a fault has taken from the page allocator. -/
def TakenFrom (taken : List Nat) (mems : Nat → FaultMem) (taken' : List Nat) : Prop :=
  ∀ p ∈ taken', p ∈ taken ∨ ∃ n, (mems n).page = some p

theorem newPage_isSome {m : FaultMem} (hm : ∀ p, m.page = some p → p ≠ 0 ∧ p ∉ s.taken) :
    ∃ r s', newPage s m = some (r, s') ∧ ∀ p ∈ s'.taken, p ∈ s.taken ∨ m.page = some p := by
  rw [newPage]
  split
  · exact ⟨none, s, rfl, fun p hp => .inl hp⟩
  rename_i p hp
  obtain ⟨h0, hfree⟩ := hm p hp
  rw [if_neg (by simp [h0, hfree])]
  split
  · refine ⟨some p, _, rfl, fun q hq => ?_⟩
    rcases mem_cons.mp hq with rfl | hq
    · exact .inr hp
    · exact .inl hq
  · exact ⟨none, _, rfl, fun q hq => .inl hq⟩

/-- The fuel of the model is enough: a fault on an object there is returns. -/
theorem vmObjectFault_isSome (h : TableInv rank created s.mem.objects)
    (hobj : s.mem.objects o = some obj) (hfuel : rank o < fuel)
    (hindex : pageIndex offset < 2 ^ 31) (hpages : PagesFresh s.taken mems) :
    ∃ res s', vmObjectFault fuel s o offset mems = some (res, s') ∧
      TakenFrom s.taken mems s'.taken := by
  induction fuel generalizing o obj mems with
  | zero => omega
  | succ fuel ih =>
    rw [vmObjectFault, hobj]
    dsimp only
    split
    · exact ⟨_, s, rfl, fun p hp => .inl hp⟩
    split
    · obtain ⟨r, s1, hnew, htaken⟩ := newPage_isSome fun p hp => hpages.unused 0 p hp
      rw [anonFault, hnew]
      cases r
      all_goals exact ⟨_, _, rfl, fun p hp => (htaken p hp).imp_right fun h => ⟨0, h⟩⟩
    · exact ⟨_, _, rfl, fun p hp => .inl hp⟩
    · rename_i pages _
      obtain ⟨r, hcache⟩ := @sharedCache_isSome pages _ (mems 0).cache hindex
      rw [sharedFault, hcache]
      cases r with
      | none => exact ⟨_, s, rfl, fun p hp => .inl hp⟩
      | some pages' =>
        dsimp only
        split
        · exact ⟨_, _, rfl, fun p hp => .inl hp⟩
        obtain ⟨r, s1, hnew, htaken⟩ := @newPage_isSome (s.setKind o obj (.shared pages'))
          (mems 0) fun p hp => hpages.unused 0 p hp
        rw [hnew]
        cases r
        all_goals exact ⟨_, _, rfl, fun p hp => (htaken p hp).imp_right fun h => ⟨0, h⟩⟩
    · rw [userPagedFault]
      split
      all_goals exact ⟨_, _, rfl, fun p hp => .inl hp⟩
    · rename_i parent copiedMap hkind
      obtain ⟨pobj, hpobj⟩ := h.parents o obj parent copiedMap hobj hkind
      have hbelow := h.below o obj parent copiedMap hobj hkind
      have hup : PagesFresh s.taken fun n => mems (n + 1) :=
        ⟨fun n p hp => hpages.unused (n + 1) p hp,
          fun n n' p hp hp' => Nat.succ.inj (hpages.distinct _ _ p hp hp')⟩
      obtain ⟨res, s1, hfault, htaken⟩ := ih hpobj (by omega) hup
      have htaken' : TakenFrom s.taken mems s1.taken :=
        fun p hp => (htaken p hp).imp_right fun ⟨n, hn⟩ => ⟨n + 1, hn⟩
      rw [hfault]
      cases res with
      | fail code => exact ⟨_, _, rfl, htaken'⟩
      | page pp =>
        dsimp only
        split
        · exact ⟨_, _, rfl, htaken'⟩
        -- the page for the copy is none of those the levels above took
        have hfresh : ∀ p, (mems 0).page = some p → p ≠ 0 ∧ p ∉ s1.taken := by
          intro p hp
          refine ⟨(hpages.unused 0 p hp).1, fun hmem => ?_⟩
          rcases htaken p hmem with hold | ⟨n, hn⟩
          · exact (hpages.unused 0 p hp).2 hold
          · have := hpages.distinct 0 (n + 1) p hp hn
            omega
        obtain ⟨r, s2, hnew, htaken2⟩ := newPage_isSome hfresh
        have hall : TakenFrom s.taken mems s2.taken := by
          intro p hp
          rcases htaken2 p hp with hold | hnew'
          · exact htaken' p hold
          · exact .inr ⟨0, hnew'⟩
        rw [hnew]
        cases r
        all_goals exact ⟨_, _, rfl, hall⟩

end Step

/-! ## Runs -/

theorem faultStart_inv (device : Nat → Bool) : faultStart.Inv device fun _ => 0 := by
  refine ⟨⟨?_, ?_, ?_, ?_⟩, ?_, ?_, ?_, ?_, ⟨List.Pairwise.nil, ?_⟩⟩
  all_goals simp [faultStart, Cached]

theorem faultStep_inv (device : Nat → Bool) (wide : Bool) (s : FaultSys) (call : FaultCall)
    (s' : FaultSys) (h : ∃ rank, s.Inv device rank) (hclean : call.Clean device s)
    (hstep : faultStep wide s call = some s') : ∃ rank, s'.Inv device rank := by
  obtain ⟨rank, h⟩ := h
  cases call with
  | createAnon size block
  | createPhys physBase size block
  | createShared size block
  | createUserPaged size port block => exact alloc_inv h (by simp) (by simp) hstep
  | createShadow parent block bitmap => exact createShadow_inv h hstep
  | fault o offset mems =>
    obtain ⟨⟨res, s1⟩, hfault, rfl⟩ := map_eq_some_iff.mp hstep
    exact ⟨rank, (vmObjectFault_spec h hclean hfault).inv⟩

/-- **Private copies are private.**  In every run of creations and faults in which no
fault reaches a page its shadow has copied, directly or through a shadow below it,
and nobody but the page allocator supplies the allocator's pages, the pages returned
are isolated; and every fault on an object there is returns. -/
theorem shadow_copies_isolated (device : Nat → Bool) (wide : Bool) (calls : List FaultCall)
    (s : FaultSys)
    (hclean : AllSteps (faultStep wide) (fun s call => call.Clean device s) faultStart calls)
    (hrun : exec (faultStep wide) faultStart calls = some s) :
    Isolated s.log ∧ ∀ o obj offset mems, s.mem.objects o = some obj →
      pageIndex offset < 2 ^ 31 → PagesFresh s.taken mems →
      ∃ s', faultStep wide s (.fault o offset mems) = some s' := by
  obtain ⟨rank, hinv⟩ := exec_invariant (fun s call s' => faultStep_inv device wide s call s')
    ⟨_, faultStart_inv device⟩ hclean hrun
  refine ⟨hinv.isolated, fun o obj offset mems hobj hindex hpages => ?_⟩
  have hrank := hinv.table.bounded o obj hobj
  obtain ⟨res, s', hfault, -⟩ := vmObjectFault_isSome hinv.table hobj
    (show rank o < s.created + 1 by omega) hindex hpages
  exact ⟨s', by rw [faultStep, hfault]; rfl⟩

/-- The page allocator hands out `p` and `q` to the first two levels. -/
def twoPages (p q : Nat) : Nat → FaultMem
  | 0 => ⟨some p, true, true, (0, 0)⟩
  | 1 => ⟨some q, true, true, (0, 0)⟩
  | _ => ⟨none, true, true, (0, 0)⟩

/-- A shared object of one page with two shadows. -/
def siblings : List FaultCall :=
  [.createShared 0x1000 (some 1), .createShadow 1 (some 2) true, .createShadow 1 (some 3) true]

theorem shadow_copies_isolated_siblings : ∃ s, exec (faultStep true) faultStart
        (siblings ++ [.fault 2 0 (twoPages 11 10), .fault 3 0 (twoPages 12 13)]) = some s ∧
      s.log = [⟨1, 0, 10, false⟩, ⟨2, 0, 11, true⟩, ⟨1, 0, 10, false⟩, ⟨3, 0, 12, true⟩] ∧
      Isolated s.log := by
  refine ⟨_, rfl, by decide, (shadow_copies_isolated (fun _ => false) true
    (siblings ++ [.fault 2 0 (twoPages 11 10), .fault 3 0 (twoPages 12 13)]) _ ?_ rfl).1⟩
  iterate 3
    refine .cons trivial rfl ?_
  refine .cons ⟨fun _ _ => rfl, ?_⟩ rfl (.cons ⟨fun _ _ => rfl, ?_⟩ rfl trivial)
  all_goals
    intro obj hobj _
    cases hobj
    refine ⟨by decide, by decide, fun _ _ => rfl, ?_⟩
    intro obj hobj _
    cases hobj
    trivial

/-- The second fault on the page of a shadow returns the page of the parent. -/
theorem second_fault_returns_parent_page : ∃ s, exec (faultStep true) faultStart
        (siblings ++ [.fault 2 0 (twoPages 11 10), .fault 2 0 (twoPages 12 13)]) = some s ∧
      s.log = [⟨1, 0, 10, false⟩, ⟨2, 0, 11, true⟩, ⟨1, 0, 10, false⟩, ⟨2, 0, 10, false⟩] ∧
      ¬ Isolated s.log := by
  refine ⟨_, rfl, by decide, fun h => ?_⟩
  exact absurd h.stable (by decide)

end ArcKernel.Vm
