import ArcKernel.Ext2.Data

/-!
# Reading back what was written

`ext2_file_read` and `ext2_file_write` on vnodes that stay in use: each works on the vnode's own
copy of the inode and then writes it to the inode table (`ext2_ev_flush`).  What a file is for
is said by `FileSpec`: bytes by position and a size.  The answers of every sequence of calls are
those of the specification.
-/

namespace ArcKernel.Ext2

open ArcKernel.Foundation Function List

/-- The volume and the inodes of the vnodes in use. -/
structure FileSys where
  vol : Volume
  ev : Nat → Inode

inductive FileCall where
  | read (ino offset count : Nat) (mem : Nat → Bool)
  | write (ino offset : Nat) (data : List UInt8) (mem : Nat → Bool)

namespace FileCall

def ino : FileCall → Nat
  | .read ino .. | .write ino .. => ino

/-- Where the call ends if nothing stops it. -/
def stop : FileCall → Nat
  | .read _ offset count _ => offset + count
  | .write _ offset data _ => offset + data.length

def mem : FileCall → Nat → Bool
  | .read _ _ _ mem | .write _ _ _ mem => mem

/-- The call ends below 4 GiB and finds the memory it needs. -/
def Served (c : FileCall) : Prop := c.stop < 2 ^ 32 ∧ ∀ off, c.mem off = true

end FileCall

/-- The bytes of a read; the number of bytes of a write, and whether no block is left after it. -/
inductive FileOut where
  | data (bytes : List UInt8)
  | wrote (count : Nat) (full : Bool)
  deriving DecidableEq

namespace FileSys

/-- `ext2_ev_flush`. -/
def flush (s : FileSys) (ino : Nat) : FileSys :=
  { s with vol := { s.vol with inodeTable := update s.vol.inodeTable ino (s.ev ino) } }

/-- `ext2_file_read`. -/
def fileRead (s : FileSys) (ino offset count : Nat) (mem : Nat → Bool) : List UInt8 × FileSys :=
  let bytes := ext2ReadData s.vol (s.ev ino) offset count mem
  (bytes, if bytes = [] then s else s.flush ino)

/-- `ext2_file_write`. -/
def fileWrite (s : FileSys) (ino offset : Nat) (data : List UInt8) (mem : Nat → Bool) :
    Nat × FileSys :=
  let w := ext2WriteData s.vol (s.ev ino) offset data mem
  let t : FileSys := { vol := w.vol, ev := update s.ev ino w.ev }
  (w.count, if w.count = 0 then t else t.flush ino)

def fileCall (s : FileSys) : FileCall → FileOut × FileSys
  | .read ino offset count mem =>
    let r := s.fileRead ino offset count mem
    (.data r.1, r.2)
  | .write ino offset data mem =>
    let r := s.fileWrite ino offset data mem
    (.wrote r.1 r.2.vol.full, r.2)

/-- The answers of a sequence of calls. -/
def answers : FileSys → List FileCall → List FileOut
  | _, [] => []
  | s, c :: cs => (s.fileCall c).1 :: (s.fileCall c).2.answers cs

/-- What the calls leave. -/
def after (s : FileSys) (cs : List FileCall) : FileSys := cs.foldl (fun s c => (s.fileCall c).2) s

end FileSys

/-! ## What a file is -/

structure FileSpec where
  bytes : Nat → Nat → UInt8
  size : Nat → Nat

namespace FileSpec

/-- A read stops at the size. -/
def read (f : FileSpec) (ino offset count : Nat) : List UInt8 :=
  (range (min count (f.size ino - offset))).map fun j => f.bytes ino (offset + j)

/-- A write replaces the bytes it is for; the size is the largest end of a write. -/
def write (f : FileSpec) (ino offset : Nat) (data : List UInt8) : FileSpec where
  bytes := fun i pos =>
    if i = ino ∧ offset ≤ pos ∧ pos < offset + data.length then data.getD (pos - offset) 0
    else f.bytes i pos
  size := update f.size ino (max (f.size ino) (offset + data.length))

/-- The answers are those of the specification; only a write that leaves no block is short. -/
def Accepts : FileSpec → List FileCall → List FileOut → Prop
  | _, [], [] => True
  | f, .read ino offset count _ :: cs, .data bytes :: outs =>
      bytes = f.read ino offset count ∧ f.Accepts cs outs
  | f, .write ino offset data _ :: cs, .wrote n full :: outs =>
      (n = data.length ∨ n < data.length ∧ full = true) ∧
        (f.write ino offset (data.take n)).Accepts cs outs
  | _, _, _ => False

end FileSpec

/-- The files as they stand: what is stored below the size, and zero from there on. -/
def FileSys.spec (s : FileSys) : FileSpec where
  bytes := fun i pos => if pos < (s.ev i).size then fileByte s.vol s.ev i pos else 0
  size := fun i => (s.ev i).size

/-! ## The code's files are those of the specification -/

/-- The files of `s` are those of `f`, and each is regular where `regular` says so. -/
structure FileSys.Meets (regular : Nat → Prop) (f : FileSpec) (s : FileSys) : Prop where
  held : Held s.vol s.ev
  regular : ∀ i, regular i → (s.ev i).mode = .reg
  size : ∀ i, (s.ev i).size = f.size i
  bytes : ∀ i pos, pos < 2 ^ 32 → fileByte s.vol s.ev i pos = f.bytes i pos

namespace FileSys

variable {regular : Nat → Prop} {f : FileSpec} {s : FileSys} {ino offset count : Nat}
  {data : List UInt8} {mem : Nat → Bool}

/-- The inode table is not where a file in use is looked up. -/
theorem Meets.flush (h : s.Meets regular f) (ino : Nat) : (s.flush ino).Meets regular f where
  held := { h.held with }
  regular := h.regular
  size := h.size
  bytes := h.bytes

theorem full_flush (s : FileSys) (ino : Nat) : (s.flush ino).vol.full = s.vol.full := by
  unfold Volume.full ext2AllocBlock Volume.alloc FileSys.flush
  dsimp only
  cases searchGroups (s.vol.fs.kind .block) (s.vol.pool .block) .none
    (range (s.vol.fs.kind .block).groups) <;> rfl

section

variable (h : s.Meets regular f) (hino : regular ino) (hmem : ∀ off, mem off = true)
include h hino

theorem Meets.not_fast : (s.ev ino).fast = false := by
  rw [Inode.fast, h.regular ino hino]
  rfl

include hmem

theorem Meets.fileRead (hrange : offset + count < 2 ^ 32) :
    (s.fileRead ino offset count mem).1 = f.read ino offset count ∧
      (s.fileRead ino offset count mem).2.Meets regular f := by
  constructor
  · show ext2ReadData .. = _
    rw [ext2ReadData_eq h.held.checked (h.not_fast hino) hmem hrange.le, h.size]
    refine map_congr_left fun j hj => h.bytes _ _ ?_
    have := mem_range.mp hj
    omega
  · unfold FileSys.fileRead
    dsimp only
    split
    · exact h
    · exact h.flush ino

theorem Meets.fileWrite (hrange : offset + data.length < 2 ^ 32) :
    ((s.fileWrite ino offset data mem).1 = data.length ∨
        (s.fileWrite ino offset data mem).1 < data.length ∧
          (s.fileWrite ino offset data mem).2.vol.full = true) ∧
      (s.fileWrite ino offset data mem).2.Meets regular
        (f.write ino offset (data.take (s.fileWrite ino offset data mem).1)) := by
  have hw := writeLoop_wrote h.held (h.not_fast hino) hmem (le_refl data.length) hrange.le
  unfold FileSys.fileWrite ext2WriteData
  generalize writeLoop mem data.length s.vol (s.ev ino) offset data = w at hw
  obtain ⟨n, v, ev⟩ := w
  have hle := hw.le
  dsimp only at hle ⊢
  -- the size changes after the blocks, and no block is found through it
  generalize hsized : ({ ev with
    size := if ev.size < offset + n then (offset + n) % 2 ^ 32 else ev.size } : Inode) = ev'
  have hmode : ev'.mode = (s.ev ino).mode := by
    rw [← hsized]
    exact hw.alike.mode
  have hsize : ev'.size = max (f.size ino) (offset + n) := by
    rw [← hsized, ← h.size ino, ← hw.alike.size]
    dsimp only
    split <;> omega
  have hpointer (slot : Nat) : ev'.pointer slot = ev.pointer slot := by
    unfold Inode.pointer Inode.fast
    rw [hmode, hw.alike.mode, h.regular ino hino, ← hsized]
    rfl
  have hforest : forest v (update s.ev ino ev') = forest v (update s.ev ino ev) := by
    unfold forest
    congr 1
    funext k
    rcases eq_or_ne k.1 ino with heq | hne
    · rw [heq, update_self, update_self, hpointer]
    · rw [update_of_ne hne, update_of_ne hne]
  have hlength : (data.take n).length = n := by
    rw [length_take]
    omega
  have hmeets : FileSys.Meets regular (f.write ino offset (data.take n))
      { vol := v, ev := update s.ev ino ev' } := by
    constructor
    · exact { hw.extend.held with
        distinct := hforest ▸ hw.extend.held.distinct
        marked := hforest ▸ hw.extend.held.marked }
    · intro i hi
      dsimp only
      rcases eq_or_ne i ino with rfl | hne
      · rw [update_self, hmode]
        exact h.regular i hi
      · rw [update_of_ne hne]
        exact h.regular i hi
    · intro i
      dsimp only [FileSpec.write]
      rcases eq_or_ne i ino with rfl | hne
      · rw [update_self, update_self, hsize, hlength]
      · rw [update_of_ne hne, update_of_ne hne, h.size]
    · intro i pos hpos
      have hbytes := hw.bytes i pos hpos
      unfold fileByte byteAt at hbytes ⊢
      rw [hforest]
      refine hbytes.trans ?_
      dsimp only [FileSpec.write]
      rw [hlength]
      split
      · rw [getD_eq_getElem?_getD, getD_eq_getElem?_getD, getElem?_take_of_lt (by omega)]
      · exact h.bytes i pos hpos
  have hcount : n = data.length ∨ n < data.length ∧ v.full = true :=
    (Nat.eq_or_lt_of_le hle).imp_right fun hlt => ⟨hlt, hw.short hlt⟩
  split
  · exact ⟨hcount, hmeets⟩
  · exact ⟨hcount.imp_right fun hfull => ⟨hfull.1, (full_flush ..).trans hfull.2⟩, hmeets.flush ino⟩

end

theorem Meets.answers (cs : List FileCall) (hcs : ∀ c ∈ cs, regular c.ino ∧ c.Served)
    (h : s.Meets regular f) :
    f.Accepts cs (s.answers cs) ∧ (s.after cs).vol.spoiled = false := by
  induction cs generalizing s f with
  | nil => exact ⟨trivial, h.held.intact⟩
  | cons c cs ih =>
    obtain ⟨hino, hstop, hmem⟩ := hcs c mem_cons_self
    have hrest := fun c hc => hcs c (mem_cons_of_mem _ hc)
    cases c with
    | read ino offset count mem =>
      obtain ⟨hbytes, hnext⟩ := h.fileRead hino hmem hstop
      exact (ih hrest hnext).imp_left fun htail => ⟨hbytes, htail⟩
    | write ino offset data mem =>
      obtain ⟨hcount, hnext⟩ := h.fileWrite hino hmem hstop
      exact (ih hrest hnext).imp_left fun htail => ⟨hcount, htail⟩

end FileSys

end ArcKernel.Ext2
