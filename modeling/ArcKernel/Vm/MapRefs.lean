import ArcKernel.Vm.MapInvariant
import ArcKernel.Vm.Memory
import ArcKernel.Vm.ObjectTable

/-!
# The references of map entries

Each entry of a map is a reference to its object.  A map call lists the references
it takes and drops; here they are shown to be the difference between the entries
before and after.

Order and overlap do not matter for this: the two loops keep the count right also
when a split moves the array, since the piece that is written to the wrong place
refers to the same object as the entry left standing.  Only the three-way split of
an entry with others behind it loses one.
-/

namespace ArcKernel.Vm

variable {events : List RefEvent} {done pieces rest : List VmEntry} {mem mem' : MapMem}
    {r : MapResult} {addr stop : Nat} {f g : Nat → Nat} {e : VmEntry} {m m' : VmMap}

/-! ## Entries as references -/

/-- The entry refers to the object at `x`. -/
def namesEntry (x : Nat) (e : VmEntry) : Bool := decide (x ≠ 0) && e.obj == x

theorem namesEntry_iff {x : Nat} : namesEntry x e = true ↔ x ≠ 0 ∧ e.obj = x := by simp [namesEntry]

/-- The number of entries that refer to `x`. -/
def entriesNaming (l : List VmEntry) (x : Nat) : Nat := l.countP (namesEntry x)

@[simp] theorem entriesNaming_nil (x : Nat) : entriesNaming [] x = 0 := rfl

@[simp] theorem entriesNaming_append (l l' : List VmEntry) (x : Nat) :
    entriesNaming (l ++ l') x = entriesNaming l x + entriesNaming l' x :=
  List.countP_append

@[simp] theorem entriesNaming_cons (e : VmEntry) (l : List VmEntry) (x : Nat) :
    entriesNaming (e :: l) x = entriesNaming [e] x + entriesNaming l x := by
  rw [← entriesNaming_append]
  rfl

/-- What one entry refers to. -/
theorem entriesNaming_single (e : VmEntry) (x : Nat) :
    entriesNaming [e] x = if e.obj = 0 then 0 else oneTo e.obj x := by
  rw [entriesNaming, List.countP_singleton, oneTo]
  by_cases h0 : e.obj = 0
  · rw [if_pos h0, if_neg]
    rw [namesEntry_iff]
    omega
  rw [if_neg h0]
  by_cases hx : x = e.obj
  · rw [if_pos hx, if_pos (namesEntry_iff.mpr ⟨by omega, hx.symm⟩)]
  · rw [if_neg hx, if_neg]
    rw [namesEntry_iff]
    omega

theorem entriesNaming_same {e' : VmEntry} (h : e'.obj = e.obj) (x : Nat) :
    entriesNaming [e'] x = entriesNaming [e] x := by
  rw [entriesNaming_single, entriesNaming_single, h]

/-! ## Lists of events -/

/-- The events turn `f` references into `g`: whatever is retained is referred to
already, and whatever is released is referred to. -/
inductive Posts : List RefEvent → (Nat → Nat) → (Nat → Nat) → Prop
  | nil {f g : Nat → Nat} (h : ∀ x, g x = f x) : Posts [] f g
  | retain {o : Nat} {es : List RefEvent} {f g : Nat → Nat} (h : 0 < f o)
      (rest : Posts es (fun x => f x + oneTo o x) g) : Posts (.retain o :: es) f g
  | release {o : Nat} {es : List RefEvent} {f f' g : Nat → Nat}
      (h : ∀ x, f x = f' x + oneTo o x) (rest : Posts es f' g) : Posts (.release o :: es) f g

theorem Posts.append {es es' : List RefEvent} {k : Nat → Nat} (h : Posts es f g)
    (h' : Posts es' g k) : Posts (es ++ es') f k := by
  induction h with
  | nil heq => rwa [← funext heq]
  | retain hpos _ ih => exact .retain hpos (ih h')
  | release heq _ ih => exact .release heq (ih h')

/-- The reference taken with a copy of an entry. -/
theorem posts_retainOf (hpos : e.obj ≠ 0 → 0 < f e.obj)
    (h : ∀ x, g x = f x + entriesNaming [e] x) : Posts (retainOf e) f g := by
  simp only [entriesNaming_single] at h
  rw [retainOf]
  split
  · rename_i h0
    exact .nil fun x => by rw [h x, if_pos h0, Nat.add_zero]
  · rename_i h0
    exact .retain (hpos h0) (.nil fun x => by rw [h x, if_neg h0])

/-- The reference dropped with an entry. -/
theorem posts_releaseOf (h : ∀ x, f x = g x + entriesNaming [e] x) : Posts (releaseOf e) f g := by
  simp only [entriesNaming_single] at h
  rw [releaseOf]
  split
  · rename_i h0
    exact .nil fun x => by rw [h x, if_pos h0, Nat.add_zero]
  · rename_i h0
    exact .release (fun x => by rw [h x, if_neg h0]) (.nil fun _ => rfl)

/-- `vm_map_destroy` drops the references of all entries. -/
theorem posts_destroy (m : VmMap) : Posts (vmMapDestroy m) (entriesNaming m.live) fun _ => 0 := by
  rw [vmMapDestroy]
  induction m.live with
  | nil => exact .nil fun _ => rfl
  | cons e rest ih =>
    refine Posts.append (posts_releaseOf ?_) ih
    intro x
    rw [entriesNaming_cons, Nat.add_comm]

section Apply

variable {addrs : Finset Nat}

section

variable (s : VmSys) (refs : List RefEvent)

@[simp] theorem applyRefs_tasks : (s.applyRefs refs).tasks = s.tasks := by
  induction refs generalizing s with
  | nil => rfl
  | cons r refs ih => cases r <;> exact ih _

@[simp] theorem applyRefs_held : (s.applyRefs refs).held = s.held := by
  induction refs generalizing s with
  | nil => rfl
  | cons r refs ih => cases r <;> exact ih _

@[simp] theorem applyRefs_created : (s.applyRefs refs).created = s.created := by
  induction refs generalizing s with
  | nil => rfl
  | cons r refs ih => cases r <;> exact ih _

end

/-- Carrying out the events keeps the counts right. -/
theorem applyRefs_table {refs : List RefEvent} {f g : Nat → Nat} (hposts : Posts refs f g)
    (others : Nat → Nat) {s : VmSys}
    (h : Table addrs s.created s.mem.objects (fun x => others x + f x)) :
    Table addrs s.created (s.applyRefs refs).mem.objects (fun x => others x + g x) := by
  induction hposts generalizing s with
  | nil heq => exact h.congr fun x => by rw [heq x]
  | @retain o es f g hpos _ ih =>
    have hsome :=
      h.exists_iff.mpr (show 0 < others o + f o + children addrs s.mem.objects o by omega)
    obtain ⟨obj, hobj⟩ := hsome
    refine @ih (s.applyRef (.retain o)) ?_
    exact (h.retain hobj).congr fun x => (Nat.add_assoc _ _ _).symm
  | @release o es f f' g heq _ ih =>
    refine @ih (s.applyRef (.release o)) ?_
    exact h.release fun x => by
      have := heq x
      omega

end Apply

/-! ## The two loops -/

/-- The events a loop adds to `refs` turn the entries of `m` into those of the map
it returns. -/
structure RefSpec (m : VmMap) (refs : List RefEvent) (r : MapResult) : Prop where
  shaped : r.map.Shaped
  posted : ∃ new, r.refs = refs ++ new ∧ Posts new (entriesNaming m.live) (entriesNaming r.map.live)

theorem RefSpec.finish {refs : List RefEvent} (h : r.map.Shaped)
    (hrefs : r.refs = refs) (hlive : r.map.live = m.live) : RefSpec m refs r :=
  ⟨h, [], by rw [hrefs, List.append_nil], .nil fun x => by rw [hlive]⟩

theorem RefSpec.step {refs : List RefEvent}
    (hturn : Posts events (entriesNaming m.live) (entriesNaming m'.live))
    (h : RefSpec m' (refs ++ events) r) : RefSpec m refs r := by
  obtain ⟨new, hrefs, hposts⟩ := h.posted
  exact ⟨h.shaped, events ++ new, by rw [hrefs, List.append_assoc], hturn.append hposts⟩

section Turn

section

variable (hlive : m.live = done ++ e :: rest)
include hlive

/-- An entry is removed. -/
theorem posts_removed (hlive' : m'.live = done ++ rest) :
    Posts (releaseOf e) (entriesNaming m.live) (entriesNaming m'.live) := by
  refine posts_releaseOf fun x => ?_
  simp only [hlive, hlive', entriesNaming_append, entriesNaming_cons e rest]
  omega

/-- An entry is changed but for its object. -/
theorem posts_changed {x : VmEntry} (hlive' : m'.live = done ++ x :: rest) (hx : x.obj = e.obj) :
    Posts [] (entriesNaming m.live) (entriesNaming m'.live) := by
  refine .nil fun o => ?_
  simp only [hlive, hlive', entriesNaming_append, entriesNaming_cons e rest,
    entriesNaming_cons x rest, entriesNaming_same hx]

/-- An entry becomes two with its object. -/
theorem posts_split {x y : VmEntry} (hlive' : m'.live = done ++ ([x, y] ++ rest))
    (hx : x.obj = e.obj) (hy : y.obj = e.obj) :
    Posts (retainOf e) (entriesNaming m.live) (entriesNaming m'.live) := by
  refine posts_retainOf (fun h0 => ?_) fun o => ?_
  · simp only [hlive, entriesNaming_append, entriesNaming_cons e rest, entriesNaming_single,
      if_neg h0, oneTo_self]
    omega
  · simp only [hlive, hlive', entriesNaming_append, entriesNaming_cons e rest,
      entriesNaming_cons x [y], entriesNaming_same hx, entriesNaming_same hy]
    omega

/-- An entry becomes three with its object. -/
theorem posts_split_three {x y z : VmEntry} (hlive' : m'.live = done ++ ([x, y, z] ++ rest))
    (hx : x.obj = e.obj) (hy : y.obj = e.obj) (hz : z.obj = e.obj) :
    Posts (retainOf e ++ retainOf e) (entriesNaming m.live) (entriesNaming m'.live) := by
  have hone : ∀ f : Nat → Nat, e.obj ≠ 0 → 0 < entriesNaming m.live e.obj + f e.obj := by
    intro f h0
    simp only [hlive, entriesNaming_append, entriesNaming_cons e rest, entriesNaming_single,
      if_neg h0, oneTo_self]
    omega
  refine Posts.append (posts_retainOf (fun h0 => hone (fun _ => 0) h0) fun o => rfl)
    (posts_retainOf (fun h0 => hone (entriesNaming [e]) h0) fun o => ?_)
  simp only [hlive, hlive', entriesNaming_append, entriesNaming_cons e rest,
    entriesNaming_cons x [y, z], entriesNaming_cons y [z], entriesNaming_same hx,
    entriesNaming_same hy, entriesNaming_same hz]
  omega

end

end Turn

/-- The events of a loop are the difference between the entries when those of its
turns are. -/
theorem Sweep.refs {l : LoopTurns} (hturn : ∀ {m m' : VmMap} {mem mem' done e rest pieces events},
      l.turn m mem e pieces events m' mem' → m.live = done ++ e :: rest →
      m'.live = done ++ (pieces ++ rest) →
      Posts events (entriesNaming m.live) (entriesNaming m'.live)) {post : List VmEntry}
    {refs : List RefEvent} (hlost : ∀ m mem, ∀ e ∈ post.dropLast, ¬ l.lost m mem e)
    (hsweep : Sweep l done post m mem refs r) : RefSpec m refs r := by
  induction hsweep with
  | finish h hlive => exact .finish h rfl rfl
  | fail hsame _ _ => exact .finish hsame.shaped rfl hsame.live
  | astray _ hl hrest =>
    exact absurd hl (hlost _ _ _ (by rw [List.dropLast_cons_of_ne_nil hrest]; simp))
  | @next done rest pieces e m m' mem mem' refs events r hlive ht hlive' _ ih =>
    refine .step (hturn ht hlive hlive') (ih fun m mem e' he' => hlost m mem e' ?_)
    cases rest with
    | nil => simp at he'
    | cons e'' rest => exact List.mem_cons_of_mem _ he'

theorem UnmapTurn.posts
    (h : UnmapTurn addr stop m mem e pieces events m' mem') (hlive : m.live = done ++ e :: rest)
    (hlive' : m'.live = done ++ (pieces ++ rest)) :
    Posts events (entriesNaming m.live) (entriesNaming m'.live) := by
  cases h with
  | skip | left | right => exact posts_changed hlive hlive' rfl
  | full => exact posts_removed hlive hlive'
  | split => exact posts_split hlive hlive' (by split <;> rfl) rfl

theorem unmapLoop_refs (mem : MapMem) (h : m.Shaped) :
    RefSpec m [] (unmapLoop addr stop m.entryCount 0 m mem []) :=
  (unmapLoop_sweep [] mem [] h rfl (le_of_eq h.length_live)).refs UnmapTurn.posts
    fun _ _ _ _ hlost => hlost

theorem ProtectTurn.posts {prot : Nat}
    (h : ProtectTurn addr stop prot m mem e pieces events m' mem')
    (hlive : m.live = done ++ e :: rest) (hlive' : m'.live = done ++ (pieces ++ rest)) :
    Posts events (entriesNaming m.live) (entriesNaming m'.live) := by
  cases h with
  | skip | full => exact posts_changed hlive hlive' rfl
  | left | right => exact posts_split hlive hlive' (by split <;> rfl) rfl
  | middle => exact posts_split_three hlive hlive' (by split <;> rfl) rfl rfl

/-- No entry but the last one reaches beyond the range on both sides. -/
def OnlyLastContains (l : List VmEntry) (addr stop : Nat) : Prop :=
  ∀ e ∈ l.dropLast, ¬ (e.start < addr ∧ stop < e.stop)

theorem protectLoop_refs (prot : Nat) (mem : MapMem) (h : m.Shaped)
    (honly : OnlyLastContains m.live addr stop) :
    RefSpec m [] (protectLoop addr stop prot m.entryCount 0 m mem []) := by
  refine (protectLoop_sweep prot [] mem [] h rfl (le_of_eq h.length_live)).refs ProtectTurn.posts ?_
  rintro _ _ e he ⟨hlow, hhigh, -⟩
  exact honly e he ⟨hlow, hhigh⟩

end ArcKernel.Vm
