import ArcKernel.Signal.Deliver

/-!
# A handler between `signal_deliver` and `sys_sigreturn`

The frame holds the instruction pointer, the stack pointer, `rax` and the mask.  It is pushed
below the stack pointer the handler is entered with, and the other general registers are not
in it.  So the interrupted context comes back exactly when the handler itself spares the
frame and hands back every other register.
-/

namespace ArcKernel.Signal

open ArcKernel.Foundation Function BitVec List SigFrame ByteMem

variable {dst : BitVec 64} {m' : ByteMem} {src : List UInt8} {a b frame n sig w i : Nat} {p : Proc}
    {r r' : Registers} {s s' q : SigState} {mem : UserMem} {f : SigFrame} {stale : RestartArgs}

/-! ## The user copies -/

/-- `n` bytes may be written from `dst` on. -/
def CanWrite (mem : UserMem) (dst : BitVec 64) (n : Nat) : Prop :=
  dst ≠ 0 ∧ dst.toNat + n ≤ userStackTop ∧
    ∀ x, dst.toNat ≤ x → x < dst.toNat + n → mem.writable x = true

theorem copyToLoop_eq_true {m : UserMem} : copyToLoop mem a src = (true, m) ↔
      (∀ x, a ≤ x → x < a + src.length → mem.writable x = true) ∧
        m = ⟨mem.bytes.write a src, mem.page⟩ := by
  induction src generalizing mem a with
  | nil =>
    rw [Prod.mk.injEq, length_nil]
    constructor
    · rintro ⟨-, rfl⟩
      exact ⟨fun x hlo hhi => absurd hhi (Nat.not_lt.mpr hlo), rfl⟩
    · rintro ⟨-, rfl⟩
      exact ⟨rfl, rfl⟩
  | cons b src ih =>
    rw [copyToLoop, length_cons]
    by_cases hok : mem.writable a = true
    · rw [if_pos hok, ih]
      have hpages : ∀ x, UserMem.writable { mem with bytes := update mem.bytes a b } x =
          mem.writable x := fun _ => rfl
      simp only [hpages]
      refine and_congr_left fun _ => ⟨fun h x hlo hhi => ?_, fun h x hlo hhi => ?_⟩
      · rcases Nat.eq_or_lt_of_le hlo with rfl | hlt
        · exact hok
        · exact h x hlt (by omega)
      · exact h x (by omega) (by omega)
    · rw [if_neg hok]
      refine iff_of_false (fun h => ?_) fun h => hok (h.1 a le_rfl (by omega))
      exact Bool.false_ne_true (congrArg Prod.fst h)

theorem copyToUser_eq_true {m : UserMem} (hne : src ≠ []) : copyToUser mem dst src = (true, m) ↔
      CanWrite mem dst src.length ∧ m = ⟨mem.bytes.write dst.toNat src, mem.page⟩ := by
  have hlen : 0 < src.length := length_pos_iff.mpr hne
  rw [copyToUser, if_neg hne, CanWrite]
  by_cases hzero : dst = 0
  · rw [if_pos hzero]
    exact iff_of_false (fun h => Bool.false_ne_true (congrArg Prod.fst h)) fun h => h.1.1 hzero
  by_cases hrange : userStackTop ≤ dst.toNat ∨ userStackTop - dst.toNat < src.length
  · rw [if_neg hzero, if_pos hrange]
    refine iff_of_false (fun h => Bool.false_ne_true (congrArg Prod.fst h)) fun h => ?_
    omega
  · rw [if_neg hzero, if_neg hrange, copyToLoop_eq_true]
    have hfits : dst.toNat + src.length ≤ userStackTop := by omega
    exact ⟨fun h => ⟨⟨hzero, hfits, h.1⟩, h.2⟩, fun h => ⟨h.1.2.2, h.2⟩⟩

theorem copyToUser_eq_false (hne : src ≠ [])
    (h : ¬ CanWrite mem dst src.length) : ∃ m, copyToUser mem dst src = (false, m) := by
  cases hcopy : copyToUser mem dst src with
  | mk ok m =>
    cases ok with
    | false => exact ⟨m, rfl⟩
    | true => exact absurd ((copyToUser_eq_true hne).mp hcopy).1 h

/-- What may be written may be read back. -/
theorem CanWrite.copyFromUser {m : UserMem} (h : CanWrite mem dst n) (hn : 0 < n)
    (hpage : m.page = mem.page) : copyFromUser m dst n = true := by
  obtain ⟨hzero, hrange, hpages⟩ := h
  rw [Signal.copyFromUser, if_neg (Nat.ne_of_gt hn), if_neg hzero, if_neg (by omega), all_eq_true]
  intro i hi
  have hw := hpages (dst.toNat + i) (Nat.le_add_right ..) (Nat.add_lt_add_left (mem_range.mp hi) _)
  rw [UserMem.writable, Bool.and_eq_true] at hw
  rw [UserMem.readable, hpage]
  exact hw.1

/-! ## The frame in memory -/

theorem length_encode (f : SigFrame) : f.encode.length = sigframeSize := by
  simp only [encode, length_append, length_wordBytes, sigframeSize]

theorem encode_ne_nil (f : SigFrame) : f.encode ≠ [] :=
  ne_nil_of_length_pos (by rw [length_encode]; decide)

theorem ofNat_load_store (w : Nat) (mem : ByteMem) (a : Nat) (v : BitVec n)
    (hw : n = 8 * w) : BitVec.ofNat n ((mem.store w a v.toNat).load w a) = v := by
  rw [ByteMem.load_store mem a (by rw [show (256 : Nat) = 2 ^ 8 from rfl, ← pow_mul, ← hw]
                                   exact v.isLt), ofNat_toNat, setWidth_eq]

/-- What was written as a frame is read as that frame. -/
theorem read_write (mem : ByteMem) (a : Nat) (f : SigFrame) :
    read (mem.write a f.encode) a = f := by
  simp only [encode, write_append, length_append, length_wordBytes,
    ByteMem.write_wordBytes, Nat.reduceAdd, SigFrame.read]
  simp (disch := omega) only [ByteMem.load_store_of_disjoint, ofNat_load_store 4 _ _ _ rfl,
    ofNat_load_store 8 _ _ _ rfl]

/-- A frame depends on its own bytes only. -/
theorem read_congr {m : ByteMem} (h : ∀ x, a ≤ x → x < a + sigframeSize → m x = m' x) :
    read m a = read m' a := by
  have hload : ∀ w off, off + w ≤ sigframeSize → m.load w (a + off) = m'.load w (a + off) :=
    fun w off hw => ByteMem.load_congr fun x hlo hhi => h x (by omega) (by omega)
  have hfirst := hload 4 0 (by decide)
  rw [Nat.add_zero] at hfirst
  simp (disch := decide) only [SigFrame.read, hload, hfirst]

/-! ## Delivery to a handler -/

/-- The signal is neither held back nor ignored nor left to the default action. -/
def Caught (s : SigState) (sig : Nat) : Prop :=
  signalIsValid sig = true ∧ (s.blocked sig = false ∨ sigIsUnblockable sig = true) ∧
    s.handler sig ≠ sigIgn ∧ s.handler sig ≠ sigDfl

/-- There is room for the frame and the return address. -/
def CanPush (s : SigState) (sig : Nat) (r : Registers) (mem : UserMem) : Prop :=
  CanWrite mem (s.frameAddr sig r) sigframeSize ∧
    (s.saRestorer sig ≠ 0 → CanWrite mem (s.entryRsp sig r) 8)

/-- User memory with the frame and the return address. -/
def pushed (s : SigState) (sig : Nat) (r : Registers) (mem : ByteMem) (stale : RestartArgs) :
    ByteMem :=
  let framed := mem.write (s.frameAddr sig r).toNat (s.buildFrame sig r stale).encode
  if s.saRestorer sig = 0 then framed
  else framed.store 8 (s.entryRsp sig r).toNat (s.saRestorer sig).toNat

theorem pushFrame_eq_returned {p₁ : Proc} {r₁ : Registers} {m₁ : UserMem} :
    pushFrame p sig r mem stale = .returned p₁ r₁ m₁ ↔
      CanPush p.signals sig r mem ∧ p₁ = p.enterHandler sig r ∧
        r₁ = { r with rsp := p.signals.entryRsp sig r, rdi := BitVec.ofNat 64 sig,
                      rip := p.signals.handler sig } ∧
        m₁ = ⟨pushed p.signals sig r mem.bytes stale, mem.page⟩ := by
  have hbytes : wordBytes 8 (p.signals.saRestorer sig).toNat ≠ [] :=
    ne_nil_of_length_pos (by rw [length_wordBytes]; decide)
  have hlen := length_wordBytes 8 (p.signals.saRestorer sig).toNat
  have hsize := length_encode (p.signals.buildFrame sig r stale)
  rw [pushFrame, pushed]
  by_cases hframe : CanWrite mem (p.signals.frameAddr sig r) sigframeSize
  swap
  · obtain ⟨m, hm⟩ := copyToUser_eq_false (encode_ne_nil _) (hsize ▸ hframe)
    rw [hm]
    exact iff_of_false nofun fun h => hframe h.1.1
  rw [(copyToUser_eq_true (encode_ne_nil _)).mpr ⟨hsize ▸ hframe, rfl⟩]
  dsimp only
  by_cases hrest : p.signals.saRestorer sig = 0
  · rw [if_pos hrest, if_pos hrest, Delivery.returned.injEq]
    exact ⟨fun h => ⟨⟨hframe, fun h' => absurd hrest h'⟩, h.1.symm, h.2.1.symm, h.2.2.symm⟩,
      fun h => ⟨h.2.1.symm, h.2.2.1.symm, h.2.2.2.symm⟩⟩
  rw [if_neg hrest, if_neg hrest]
  have hpages : ∀ framed : ByteMem, CanWrite ⟨framed, mem.page⟩ (p.signals.entryRsp sig r)
      (wordBytes 8 (p.signals.saRestorer sig).toNat).length ↔
      CanWrite mem (p.signals.entryRsp sig r) 8 := fun framed => by rw [hlen]; exact Iff.rfl
  by_cases hret : CanWrite mem (p.signals.entryRsp sig r) 8
  · rw [(copyToUser_eq_true hbytes).mpr ⟨(hpages _).mpr hret, rfl⟩]
    dsimp only
    rw [Delivery.returned.injEq]
    exact ⟨fun h => ⟨⟨hframe, fun _ => hret⟩, h.1.symm, h.2.1.symm, h.2.2.symm⟩,
      fun h => ⟨h.2.1.symm, h.2.2.1.symm, h.2.2.2.symm⟩⟩
  · obtain ⟨m, hm⟩ := copyToUser_eq_false hbytes (mt (hpages (mem.bytes.write
      (p.signals.frameAddr sig r).toNat (p.signals.buildFrame sig r stale).encode)).mp hret)
    rw [hm]
    exact iff_of_false nofun fun h => hret (h.1.2 hrest)

/-- The return address lies right above the frame. -/
theorem entryRsp_toNat (hroom : CanPush s sig r mem) (hrest : s.saRestorer sig ≠ 0) :
    (s.entryRsp sig r).toNat = (s.frameAddr sig r).toNat + sigframeSize := by
  have hfits := hroom.1.2.1
  have hsum : s.entryRsp sig r = s.frameAddr sig r + BitVec.ofNat 64 sigframeSize := by
    rw [SigState.entryRsp, SigState.frameAddr, if_pos hrest, if_pos hrest, BitVec.sub_add_cancel]
  rw [hsum, toNat_add, toNat_ofNat, Nat.mod_eq_of_lt (b := 2 ^ 64)]
  · rfl
  · have : userStackTop + 120 < 2 ^ 64 := by decide
    have hsize : sigframeSize % 2 ^ 64 = 120 := by decide
    omega

theorem read_pushed (hroom : CanPush s sig r mem) (stale : RestartArgs) :
    read (pushed s sig r mem.bytes stale) (s.frameAddr sig r).toNat = s.buildFrame sig r stale := by
  rw [pushed]
  split
  · exact read_write ..
  · rename_i hrest
    rw [read_congr fun x _ hhi => store_outside _ _ (.inl ?_), read_write]
    rw [entryRsp_toNat hroom hrest]
    exact hhi

theorem signalDeliver_of_caught (h : Caught p.signals sig) (r : Registers)
    (mem : UserMem) (stale : RestartArgs) :
    signalDeliver p sig r mem stale = pushFrame (p.forceUnblocked sig) sig r mem stale := by
  obtain ⟨hvalid, hblocked, hign, hdfl⟩ := h
  have hhandler : (p.forceUnblocked sig).signals.handler sig = p.signals.handler sig := by
    rw [Proc.forceUnblocked]
    split <;> rfl
  have hheld : ¬ (p.signals.blocked sig && !sigIsUnblockable sig) = true := by
    rcases hblocked with hb | hu
    · rw [hb]
      exact Bool.false_ne_true
    · rw [hu, Bool.not_true, Bool.and_false]
      exact Bool.false_ne_true
  rw [signalDeliver, if_neg (by rw [hvalid]; decide), if_neg hheld]
  rw [if_neg (hhandler ▸ hign), if_neg (hhandler ▸ hdfl)]

/-! ## The mask -/

theorem getLsbD_packMask (blocked : Nat → Bool) (hi : 1 ≤ i) (hn : i < nsig) :
    (packMask blocked).getLsbD i = blocked i := by
  have hbit : ∀ j, (1#32 <<< j).getLsbD i = decide (i = j) := by
    intro j
    rw [getLsbD_shiftLeft, getLsbD_one]
    have : i < 32 := hn
    by_cases hlt : i < j
    · rw [decide_eq_true hlt, decide_eq_false (Nat.ne_of_lt hlt), Bool.not_true, Bool.and_false,
        Bool.false_and]
    · rw [decide_eq_true this, decide_eq_false hlt, Bool.not_false, Bool.and_true,
        decide_eq_true (by decide : 0 < 32), Bool.true_and]
      exact decide_eq_decide.mpr (by omega)
  have hfold : ∀ (l : List Nat) (mask : BitVec 32),
      (l.foldl (fun mask i => if blocked i then mask ||| 1#32 <<< i else mask) mask).getLsbD i =
        (mask.getLsbD i || (decide (i ∈ l) && blocked i)) := by
    intro l
    induction l with
    | nil => intro mask; simp
    | cons j l ih =>
      intro mask
      rw [foldl_cons, ih]
      rcases eq_or_ne i j with rfl | hne
      · cases hb : blocked i <;> simp [hbit]
      · cases blocked j <;> simp [hbit, hne]
  rw [packMask, hfold, show (0 : BitVec 32).getLsbD i = false from getLsbD_zero, Bool.false_or,
    decide_eq_true, Bool.true_and]
  exact mem_range'_1.mpr ⟨hi, by rw [nsig] at hn; omega⟩

theorem getLsbD_and_unblockable (mask : BitVec 32) (hn : i < nsig) :
    (mask &&& ~~~unblockableMask).getLsbD i = (mask.getLsbD i && !sigIsUnblockable i) := by
  have hbits : ∀ j < nsig, (~~~unblockableMask).getLsbD j = !sigIsUnblockable j := by decide
  rw [getLsbD_and, hbits i hn]

/-! ## The interrupted context -/

/-- What a handler does between being entered and calling `sigreturn`: the addresses it may
write, the registers it comes back with, and the signal state its own system calls leave. -/
structure HandlerRun where
  writes : Nat → Prop
  regs : Registers
  signals : SigState

/-- Only bytes the handler may write have changed. -/
def HandlerRun.Agree (h : HandlerRun) (m m' : UserMem) : Prop :=
  m'.page = m.page ∧ ∀ a, ¬ h.writes a → m'.bytes a = m.bytes a

/-- After `sigreturn` the context is the interrupted one. -/
def Resumes (s : SigState) (r : Registers) (after : SigState × Registers × BitVec 64) : Prop :=
  after.2.1.rip = r.rip ∧ after.2.1.rsp = r.rsp ∧ after.2.2 = r.rax ∧
    after.2.1.others = r.others ∧ ∀ i, 1 ≤ i → i < nsig → after.1.blocked i = s.blocked i

/-- Whatever the handler writes, delivery and return around it restore the context.  The
address of the frame is the one delivery recorded. -/
def Restores (p : Proc) (sig : Nat) (r : Registers) (mem : UserMem) (h : HandlerRun) : Prop :=
  ∀ stale p₁ r₁ m₁ m₂, signalDeliver p sig r mem stale = .returned p₁ r₁ m₁ → h.Agree m₁ m₂ →
    ∃ after, sysSigreturn { h.signals with sigframeAddr := p₁.signals.sigframeAddr } h.regs m₂ =
      some after ∧ Resumes p.signals r after

/-- The bytes of a frame that decide what is resumed: `saved_rip`, `saved_rsp`, `saved_rax`
with `saved_mask`, and `restart_active`. -/
def ReadBack (frame a : Nat) : Prop :=
  (frame + 8 ≤ a ∧ a < frame + 16) ∨ (frame + 32 ≤ a ∧ a < frame + 40) ∨
    (frame + 48 ≤ a ∧ a < frame + 60) ∨ (frame + 64 ≤ a ∧ a < frame + 68)

/-- No restart is due, the handler spares those bytes and returns with the other general
registers as they were, and the mask holds neither `SIGKILL` nor `SIGSTOP`. -/
def Transparent (s : SigState) (sig : Nat) (r : Registers) (h : HandlerRun) : Prop :=
  s.restarts sig = false ∧ (∀ a, ReadBack (s.frameAddr sig r).toNat a → ¬ h.writes a) ∧
    h.regs.others = r.others ∧ s.blocked sigkill = false ∧ s.blocked sigstop = false

/-- `Restores` without delivery: the frame is in memory and is read back. -/
theorem restores_iff_frames
    (h : HandlerRun) (hcaught : Caught p.signals sig) (hroom : CanPush p.signals sig r mem) :
    Restores p sig r mem h ↔ ∀ stale m₂, h.Agree
        ⟨pushed (p.forceUnblocked sig).signals sig r mem.bytes stale, mem.page⟩ m₂ →
      Resumes p.signals r (resume (read m₂.bytes (p.signals.frameAddr sig r).toNat)
        { h.signals with sigframeAddr := p.signals.frameAddr sig r } h.regs) := by
  have haddr : (p.forceUnblocked sig).signals.frameAddr sig r = p.signals.frameAddr sig r := by
    rw [Proc.forceUnblocked]
    split <;> rfl
  have hroom' : CanPush (p.forceUnblocked sig).signals sig r mem := by
    rw [Proc.forceUnblocked]
    split <;> exact hroom
  have hne : p.signals.frameAddr sig r ≠ 0 := hroom.1.1
  have hpop : ∀ m₂ : UserMem, m₂.page = mem.page →
      sysSigreturn { h.signals with sigframeAddr := p.signals.frameAddr sig r } h.regs m₂ =
        some (resume (read m₂.bytes (p.signals.frameAddr sig r).toNat)
          { h.signals with sigframeAddr := p.signals.frameAddr sig r } h.regs) := by
    intro m₂ hpage
    have hpopped : poppedAddr { h.signals with sigframeAddr := p.signals.frameAddr sig r } h.regs =
        p.signals.frameAddr sig r := if_neg hne
    rw [sysSigreturn, hpopped, if_pos (hroom.1.copyFromUser (by decide) hpage)]
  constructor
  · intro hres stale m₂ hagree
    obtain ⟨after, hafter, hresumes⟩ := hres stale _ _ _ m₂
      ((signalDeliver_of_caught hcaught r mem stale).trans
        (pushFrame_eq_returned.mpr ⟨hroom', rfl, rfl, rfl⟩)) hagree
    rw [show ((p.forceUnblocked sig).enterHandler sig r).signals.sigframeAddr =
      p.signals.frameAddr sig r from haddr, hpop m₂ hagree.1] at hafter
    exact Option.some.inj hafter ▸ hresumes
  · intro hframes stale p₁ r₁ m₁ m₂ hdel hagree
    rw [signalDeliver_of_caught hcaught] at hdel
    obtain ⟨-, rfl, -, rfl⟩ := pushFrame_eq_returned.mp hdel
    rw [show ((p.forceUnblocked sig).enterHandler sig r).signals.sigframeAddr =
      p.signals.frameAddr sig r from haddr]
    exact ⟨_, hpop m₂ hagree.1, hframes stale m₂ hagree⟩

/-! ## What is resumed -/

theorem resumes_iff_of_inactive (hf : f.restartActive = 0) : Resumes s r (resume f s' r') ↔
      f.savedRip = r.rip ∧ f.savedRsp = r.rsp ∧ f.savedRax = r.rax ∧ r'.others = r.others ∧
        ∀ i, 1 ≤ i → i < nsig → (f.savedMask.getLsbD i && !sigIsUnblockable i) = s.blocked i := by
  have hblocked : ∀ i, 1 ≤ i → i < nsig → (resume f s' r').1.blocked i =
      (f.savedMask.getLsbD i && !sigIsUnblockable i) := by
    intro i hi hn
    rw [resume, if_neg (not_not_intro hf), ← getLsbD_and_unblockable _ hn]
    show ((1 ≤ i && i < nsig) && _) = _
    rw [decide_eq_true hi, decide_eq_true hn, Bool.true_and, Bool.true_and]
  have hregs : (resume f s' r').2 = ({ r' with
      rax := f.savedRax, rip := f.savedRip, cs := userCsSel,
      rflags := (f.savedRflags &&& rflagsSafeMask) ||| 0x2, rsp := f.savedRsp, ss := userSsSel },
      f.savedRax) := by
    rw [resume, if_neg (not_not_intro hf)]
  rw [Resumes, hregs]
  refine and_congr Iff.rfl (and_congr Iff.rfl (and_congr Iff.rfl (and_congr Iff.rfl ?_)))
  exact ⟨fun h i hi hn => hblocked i hi hn ▸ h i hi hn,
    fun h i hi hn => (hblocked i hi hn).trans (h i hi hn)⟩

/-- With the restart flag up the argument registers come from the frame. -/
theorem Resumes.of_active (h : Resumes s r (resume f s' r'))
    (hf : f.restartActive ≠ 0) : f.savedRip = r.rip ∧ f.restartArgs.arg0 = r.rdi := by
  obtain ⟨hrip, -, -, hothers, -⟩ := h
  rw [resume, if_pos hf] at hrip hothers
  refine ⟨hrip, ?_⟩
  simp only [Registers.others, cons.injEq] at hothers
  exact hothers.2.2.2.2.1

/-! ## Changing one byte of a frame -/

/-- Turn over bit 2 of one byte.  In no byte of the mask is that the bit of `SIGKILL` or
`SIGSTOP`. -/
def flip (m : ByteMem) (a : Nat) : ByteMem := update m a (m a ^^^ 4)

theorem load_flip_outside (m : ByteMem) (h : a < b ∨ b + w ≤ a) :
    (flip m a).load w b = m.load w b :=
  load_congr fun x hlo hhi => update_of_ne (by omega) ..

theorem getLsbD_flip (m : ByteMem) (hn : n = 8 * w) (hlo : b ≤ a) (hhi : a < b + w) :
    (BitVec.ofNat n ((flip m a).load w b)).getLsbD (8 * (a - b) + 2) =
      !(BitVec.ofNat n (m.load w b)).getLsbD (8 * (a - b) + 2) := by
  have hin : 8 * (a - b) + 2 < n := by omega
  have hbyte : ((m a ^^^ 4).toNat).testBit 2 = !(m a).toNat.testBit 2 := by
    rw [UInt8.toNat_xor, Nat.testBit_xor, show (4 : UInt8).toNat.testBit 2 = true from rfl,
      Bool.xor_true]
  rw [getLsbD_ofNat, getLsbD_ofNat, decide_eq_true hin, Bool.true_and, Bool.true_and,
    testBit_load _ b (by omega) (by decide), testBit_load _ b (by omega) (by decide),
    Nat.add_sub_cancel' hlo, flip, update_self, hbyte]

/-- So the word read there is another one. -/
theorem ofNat_load_flip_ne (m : ByteMem) (hn : n = 8 * w) (hlo : b ≤ a) (hhi : a < b + w) :
    BitVec.ofNat n ((flip m a).load w b) ≠ BitVec.ofNat n (m.load w b) := by
  intro heq
  have hflip := getLsbD_flip m hn hlo hhi
  rw [heq] at hflip
  exact Bool.not_ne_self _ hflip.symm

/-- Whatever byte that is read back may change, some content of it is resumed wrongly. -/
theorem not_resumes_flip {m : ByteMem} (hinactive : (read m frame).restartActive = 0)
    (hstale : (read m frame).restartArgs.arg0 ≠ r.rdi)
    (hok : Resumes s r (resume (read m frame) s' r')) (ha : ReadBack frame a) :
    ¬ Resumes s r (resume (read (flip m a) frame) s' r') := by
  intro hres
  obtain ⟨hrip, hrsp, hrax, -, hmask⟩ := (resumes_iff_of_inactive hinactive).mp hok
  by_cases hflag : frame + 64 ≤ a ∧ a < frame + 68
  · -- the flag goes up, and the frame's stale words are taken for the arguments
    have harg : (read (flip m a) frame).restartArgs.arg0 = (read m frame).restartArgs.arg0 :=
      congrArg (BitVec.ofNat 64) (load_flip_outside m (by omega))
    refine hstale (harg ▸ (hres.of_active fun hzero => ?_).2)
    exact ofNat_load_flip_ne m rfl hflag.1 hflag.2 (hzero.trans hinactive.symm)
  have hstill : (read (flip m a) frame).restartActive = 0 :=
    (congrArg (BitVec.ofNat 32) (load_flip_outside m (by omega))).trans hinactive
  obtain ⟨hrip', hrsp', hrax', -, hmask'⟩ := (resumes_iff_of_inactive hstill).mp hres
  rcases ha with hin | hin | hin | hin
  · exact ofNat_load_flip_ne m rfl hin.1 hin.2 (hrip'.trans hrip.symm)
  · exact ofNat_load_flip_ne m rfl hin.1 hin.2 (hrsp'.trans hrsp.symm)
  · by_cases hlow : a < frame + 56
    · exact ofNat_load_flip_ne m rfl hin.1 hlow (hrax'.trans hrax.symm)
    · have hlo : frame + 56 ≤ a := Nat.le_of_not_lt hlow
      have hsig : ∀ k < 4, sigIsUnblockable (8 * k + 2) = false := by decide
      have hbit := hsig (a - (frame + 56)) (by omega)
      have hrange : 8 * (a - (frame + 56)) + 2 < nsig := by rw [nsig]; omega
      have heq := (hmask' _ (by omega) hrange).trans (hmask _ (by omega) hrange).symm
      rw [hbit, Bool.not_false, Bool.and_true, Bool.and_true] at heq
      have hflip : (read (flip m a) frame).savedMask.getLsbD (8 * (a - (frame + 56)) + 2) =
          !(read m frame).savedMask.getLsbD (8 * (a - (frame + 56)) + 2) :=
        getLsbD_flip m rfl hlo (by omega)
      exact Bool.not_ne_self _ (hflip.symm.trans heq)
  · exact hflag hin

/-! ## When a context is restored -/

theorem buildFrame_restart (h : s.restarts sig = true) (r : Registers)
    (stale : RestartArgs) : (s.buildFrame sig r stale).restartActive = 1 ∧
      (s.buildFrame sig r stale).savedRip = r.rip - syscallInsLen :=
  ⟨if_pos h, if_pos h⟩

theorem buildFrame_plain (h : s.restarts sig = false) (r : Registers)
    (stale : RestartArgs) : (s.buildFrame sig r stale).restartActive = 0 ∧
      (s.buildFrame sig r stale).savedRip = r.rip ∧
      (s.buildFrame sig r stale).restartArgs = stale :=
  have h' : ¬ s.restarts sig = true := fun ht => Bool.false_ne_true (h.symm.trans ht)
  ⟨if_neg h', if_neg h', if_neg h'⟩

/-- The fields that decide what is resumed depend on the bytes read back only. -/
theorem read_spared {m : ByteMem} (h : ∀ a, ReadBack frame a → m' a = m a) :
    (read m' frame).restartActive = (read m frame).restartActive ∧
      (read m' frame).savedRip = (read m frame).savedRip ∧
      (read m' frame).savedRsp = (read m frame).savedRsp ∧
      (read m' frame).savedRax = (read m frame).savedRax ∧
      (read m' frame).savedMask = (read m frame).savedMask := by
  have hload : ∀ w off, (∀ x, off ≤ x → x < off + w → ReadBack frame x) →
      m'.load w off = m.load w off :=
    fun w off hin => load_congr fun x hlo hhi => h x (hin x hlo hhi)
  refine ⟨congrArg (BitVec.ofNat 32) (hload 4 (frame + 64) fun x hlo hhi => ?_),
    congrArg (BitVec.ofNat 64) (hload 8 (frame + 8) fun x hlo hhi => ?_),
    congrArg (BitVec.ofNat 64) (hload 8 (frame + 32) fun x hlo hhi => ?_),
    congrArg (BitVec.ofNat 64) (hload 8 (frame + 48) fun x hlo hhi => ?_),
    congrArg (BitVec.ofNat 32) (hload 4 (frame + 56) fun x hlo hhi => ?_)⟩
  all_goals
    rw [ReadBack]
    omega

/-- A frame that came through the handler, and the registers with it. -/
theorem resumes_of_transparent {m : ByteMem}
    (hbuilt : read m frame = q.buildFrame sig r stale) (hplain : q.restarts sig = false)
    (hblocked : ∀ i, sigIsUnblockable i = false → q.blocked i = s.blocked i)
    (hspared : ∀ a, ReadBack frame a → m' a = m a) (hothers : r'.others = r.others)
    (hkill : s.blocked sigkill = false) (hstop : s.blocked sigstop = false) :
    Resumes s r (resume (read m' frame) s' r') := by
  obtain ⟨hactive, hrip, hrsp, hrax, hmask⟩ := read_spared hspared
  rw [hbuilt] at hactive hrip hrsp hrax hmask
  obtain ⟨hzero, hrip', -⟩ := buildFrame_plain hplain r stale
  refine (resumes_iff_of_inactive (hactive.trans hzero)).mpr
    ⟨hrip.trans hrip', hrsp, hrax, hothers, fun i hi hn => ?_⟩
  rw [hmask, show (q.buildFrame sig r stale).savedMask = packMask q.blocked from rfl,
    getLsbD_packMask _ hi hn]
  cases hu : sigIsUnblockable i with
  | false => rw [Bool.not_false, Bool.and_true, hblocked i hu]
  | true =>
    rw [Bool.not_true, Bool.and_false]
    rw [sigIsUnblockable, Bool.or_eq_true, beq_iff_eq, beq_iff_eq] at hu
    rcases hu with rfl | rfl
    · exact hkill.symm
    · exact hstop.symm

/-- A handler around which every context is resumed is transparent. -/
theorem transparent_of_resumes {h : HandlerRun}
    {m : RestartArgs → UserMem} {addr : BitVec 64} (haddr : addr = s.frameAddr sig r)
    (hbuilt : ∀ stale, read (m stale).bytes addr.toNat = q.buildFrame sig r stale)
    (hrestarts : q.restarts sig = s.restarts sig)
    (hall : ∀ stale m', h.Agree (m stale) m' →
      Resumes s r (resume (read m'.bytes addr.toNat) s' h.regs)) :
    Transparent s sig r h := by
  -- the stale words differ from the arguments, so a raised flag shows
  obtain ⟨stale, hstale⟩ : ∃ stale : RestartArgs, stale.arg0 ≠ r.rdi :=
    ⟨⟨r.rdi + 1, 0, 0, 0, 0, 0⟩, by show r.rdi + 1 ≠ r.rdi; bv_omega⟩
  have hself := hall stale _ ⟨rfl, fun _ _ => rfl⟩
  have hre : s.restarts sig = false := by
    rw [Bool.eq_false_iff]
    intro hre
    obtain ⟨hactive, hrip⟩ := buildFrame_restart (hrestarts.trans hre) r stale
    rw [hbuilt stale] at hself
    have hsame := hrip.symm.trans (hself.of_active (by rw [hactive]; decide)).1
    rw [syscallInsLen] at hsame
    bv_omega
  obtain ⟨hzero, -, hargs⟩ := buildFrame_plain (hrestarts.trans hre) r stale
  obtain ⟨-, -, -, hothers, hmask⟩ :=
    (resumes_iff_of_inactive ((congrArg _ (hbuilt stale)).trans hzero)).mp hself
  refine ⟨hre, fun a ha hwrites => ?_, hothers, ?_, ?_⟩
  · rw [← haddr] at ha
    refine not_resumes_flip ((congrArg _ (hbuilt stale)).trans hzero) ?_ hself ha
      (hall stale ⟨flip (m stale).bytes a, (m stale).page⟩ ⟨rfl, fun x hx => ?_⟩)
    · rw [hbuilt stale, hargs]
      exact hstale
    · refine update_of_ne ?_ ..
      rintro rfl
      exact hx hwrites
  · rw [← hmask sigkill (by decide) (by decide)]
    exact Bool.and_false _
  · rw [← hmask sigstop (by decide) (by decide)]
    exact Bool.and_false _

/-- **Delivery and return around a handler.**  For every signal that is caught and has room
for its frame, and every handler: whatever the handler writes where it writes, the interrupted
context comes back, exactly when the handler is transparent. -/
theorem handler_restores_iff (p : Proc) (sig : Nat) (r : Registers) (mem : UserMem)
    (h : HandlerRun) (hcaught : Caught p.signals sig) (hroom : CanPush p.signals sig r mem) :
    Restores p sig r mem h ↔ Transparent p.signals sig r h := by
  rw [restores_iff_frames h hcaught hroom]
  have hrestarts : (p.forceUnblocked sig).signals.restarts sig = p.signals.restarts sig := by
    rw [Proc.forceUnblocked]
    split <;> rfl
  have hblocked : ∀ i, sigIsUnblockable i = false →
      (p.forceUnblocked sig).signals.blocked i = p.signals.blocked i := by
    intro i hi
    rw [Proc.forceUnblocked]
    split
    · rename_i hsig
      refine update_of_ne ?_ ..
      rintro rfl
      exact Bool.false_ne_true (hi.symm.trans hsig)
    · rfl
  have hread : ∀ stale, read (pushed (p.forceUnblocked sig).signals sig r mem.bytes stale)
      (p.signals.frameAddr sig r).toNat =
        (p.forceUnblocked sig).signals.buildFrame sig r stale := by
    rw [Proc.forceUnblocked]
    split <;> exact read_pushed hroom
  constructor
  · intro hall
    exact transparent_of_resumes (m := fun stale =>
      ⟨pushed (p.forceUnblocked sig).signals sig r mem.bytes stale, mem.page⟩)
      rfl hread hrestarts hall
  · rintro ⟨hre, hspared, hothers, hkill, hstop⟩ stale m' ⟨-, hsame⟩
    exact resumes_of_transparent (hread stale) (hrestarts.trans hre) hblocked
      (fun a ha => hsame a (hspared a ha)) hothers hkill hstop

/-! ## One context -/

/-- `SIGUSR1` has a handler and a restorer. -/
def exampleSignals : SigState where
  handler := fun sig => if sig = 10 then 0x401000 else sigDfl
  pending := fun sig => sig = 10
  blocked := fun sig => sig = 15
  inSignal := false
  saMask := fun _ => 0
  saFlags := fun _ => 0
  saRestorer := fun sig => if sig = 10 then 0x402000 else 0
  ssSp := 0
  ssSize := 0
  ssActive := false
  onAltstack := false
  syscallRestartable := false
  restartSysno := 0
  restartFrame := false
  sigframeAddr := 0

def exampleProc : Proc := ⟨exampleSignals, .running, false, false, 0, 0⟩

def exampleRegs : Registers where
  rax := 5
  rbx := 0
  rcx := 0
  rdx := 0
  rsi := 0
  rdi := 7
  rbp := 0
  r8 := 0
  r9 := 0
  r10 := 0
  r11 := 0
  r12 := 0
  r13 := 0
  r14 := 0
  r15 := 0
  rip := 0x400010
  cs := userCsSel
  rflags := 0x202
  rsp := 0x600000
  ss := userSsSel

def exampleMem : UserMem := ⟨fun _ => 0, fun _ => ⟨true, true, true, false⟩⟩

/-- A handler that writes below the frame only and puts `rdi` back. -/
theorem handler_restores_below_frame :
    Caught exampleProc.signals 10 ∧ CanPush exampleProc.signals 10 exampleRegs exampleMem ∧
      Restores exampleProc 10 exampleRegs exampleMem
        ⟨fun a => a < 0x5FFF80, { exampleRegs with rax := 1043, rsp := 0x600000 },
          exampleSignals⟩ := by
  have hcaught : Caught exampleProc.signals 10 := ⟨rfl, .inl rfl, by decide, by decide⟩
  have hroom : CanPush exampleProc.signals 10 exampleRegs exampleMem :=
    ⟨⟨by decide, by decide, fun _ _ _ => rfl⟩, fun _ => ⟨by decide, by decide, fun _ _ _ => rfl⟩⟩
  have hframe : (exampleProc.signals.frameAddr 10 exampleRegs).toNat = 0x5FFF80 := by decide
  refine ⟨hcaught, hroom, (handler_restores_iff _ _ _ _ _ hcaught hroom).mpr
    ⟨rfl, fun a ha hlow => ?_, rfl, rfl, rfl⟩⟩
  rw [ReadBack] at ha
  omega

/-- Delivery, a handler and return, on the example. -/
def exampleReturn (handler : Registers → UserMem → Registers × UserMem) : Option Registers :=
  match signalDeliver exampleProc 10 exampleRegs exampleMem ⟨0, 0, 0, 0, 0, 0⟩ with
  | .returned p r mem =>
      match sysSigreturn p.signals (handler r mem).1 (handler r mem).2 with
      | some (_, r, ret) => some { r with rax := ret }
      | none => none
  | _ => none

/-- A handler that pushes fourteen words and returns, with every register put back, resumes at
what it pushed last; one that does nothing but return leaves the signal number in `rdi`. -/
theorem handler_overwrites_frame : (exampleReturn fun r mem =>
        ({ exampleRegs with rsp := r.rsp + 8 },
          { mem with bytes := mem.bytes.store 8 (r.rsp.toNat - 112) 0xBAD })).map
      (fun r => (r.rip, r.others == exampleRegs.others)) = some (0xBAD, true) ∧
    (exampleReturn fun r mem => ({ r with rsp := r.rsp + 8 }, mem)).map
      (fun r => (r.rip, r.rdi)) = some (0x400010, 10) ∧
    exampleRegs.rip = 0x400010 ∧ exampleRegs.rdi = 7 := by
  decide +kernel

end ArcKernel.Signal
