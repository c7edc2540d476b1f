import ArcKernel.Names.Model
import ArcKernel.Foundation.Rooted

/-!
# Directory trees

What a tree of directories is, over the relation "this directory has that entry", and what
the changes the operations make do to it: a file gets or loses a name, a leaf directory comes
or goes, a directory changes its name within its parent.
-/

namespace ArcKernel.Names

open Relation ArcKernel.Foundation

/-- `c` is a directory named by an entry of `d` other than `.` and `..`. -/
def Child (isDir : Nat → Prop) (has : Nat → Entry → Prop) (d c : Nat) : Prop :=
  isDir c ∧ ∃ n, has d ⟨.plain n, c⟩

/-- The directories form a tree under the root. -/
structure Tree (root : Nat) (used isDir : Nat → Prop) (has : Nat → Entry → Prop) : Prop where
  dirs : ∀ d e, has d e → isDir d
  exist : ∀ d, isDir d → used d
  live : ∀ d e, has d e → used e.ino
  unique : ∀ d e e', has d e → has d e' → e.name = e'.name → e = e'
  dot : ∀ d, isDir d → has d ⟨.dot, d⟩
  parent : ∀ d n c, has d ⟨.plain n, c⟩ → isDir c → has c ⟨.dotdot, d⟩ ∧ c ≠ root
  once : ∀ d n n' c, has d ⟨.plain n, c⟩ → has d ⟨.plain n', c⟩ → isDir c → n = n'
  top : isDir root ∧ has root ⟨.dotdot, root⟩
  reach : ∀ c, isDir c → ReflTransGen (Child isDir has) root c

namespace Tree

variable {root d d' i j c : Nat} {n m : List UInt8} {e : Entry}
  {used used' isDir isDir' : Nat → Prop} {has has' : Nat → Entry → Prop}

section

variable (h : Tree root used isDir has)
include h

theorem ino_eq {x : Name} (hi : has d ⟨x, i⟩) (hj : has d ⟨x, j⟩) : i = j :=
  congrArg Entry.ino (h.unique d _ _ hi hj rfl)

theorem parent_unique (hd : Child isDir has d c) (hd' : Child isDir has d' c) : d = d' := by
  obtain ⟨hc, n, hn⟩ := hd
  obtain ⟨-, m, hm⟩ := hd'
  exact h.ino_eq (h.parent d n c hn hc).1 (h.parent d' m c hm hc).1

/-- Every directory but the root has a parent. -/
theorem exists_parent (hc : isDir c) (hne : c ≠ root) :
    ∃ d, Child isDir has d c ∧ has c ⟨.dotdot, d⟩ := by
  rcases ReflTransGen.cases_tail (h.reach c hc) with heq | ⟨d, -, hd⟩
  · exact absurd heq hne
  · obtain ⟨-, n, hn⟩ := hd
    exact ⟨d, ⟨hc, n, hn⟩, (h.parent d n c hn hc).1⟩

/-- An empty directory is named by its parent and by its own `.`, and by nothing else. -/
theorem named_leaf (hentry : has d ⟨.plain n, i⟩) (hi : isDir i)
    (hleaf : ∀ m j, ¬ has i ⟨.plain m, j⟩) (he : has d' e) (hino : e.ino = i) :
    (d' = d ∧ e.name = .plain n) ∨ (d' = i ∧ e.name = .dot) := by
  have hd' := h.dirs d' e he
  obtain ⟨x, k⟩ := e
  subst hino
  cases x with
  | dot => exact .inr ⟨(h.ino_eq he (h.dot d' hd')).symm, rfl⟩
  | dotdot =>
    exfalso
    by_cases hroot : d' = root
    · subst hroot
      exact (h.parent d n k hentry hi).2 (h.ino_eq he h.top.2)
    · obtain ⟨p, ⟨-, m, hm⟩, hp⟩ := h.exists_parent hd' hroot
      obtain rfl := h.ino_eq he hp
      exact hleaf m d' hm
  | plain m =>
    obtain rfl := h.parent_unique ⟨hi, m, he⟩ ⟨hi, n, hentry⟩
    obtain rfl := h.once d' m n k he hentry hi
    exact .inl ⟨rfl, rfl⟩

/-- Beside a new name no two entries of a directory have one name. -/
theorem unique_add {e₀ e' : Entry} (hnew : ∀ j, ¬ has d ⟨e₀.name, j⟩)
    (hhas : ∀ d' e, has' d' e → has d' e ∨ d' = d ∧ e = e₀) (he : has' d' e) (he' : has' d' e')
    (hname : e.name = e'.name) : e = e' := by
  rcases hhas d' e he with he | ⟨rfl, rfl⟩
  · rcases hhas d' e' he' with he' | ⟨rfl, rfl⟩
    · exact h.unique d' e e' he he' hname
    · obtain ⟨x, k⟩ := e
      subst hname
      exact absurd he (hnew k)
  · rcases hhas d' e' he' with he' | ⟨-, rfl⟩
    · obtain ⟨x, k⟩ := e'
      subst hname
      exact absurd he' (hnew k)
    · rfl

end

/-! ## Files -/

/-- A file gets a name. -/
theorem addFile (h : Tree root used isDir has) (hd : isDir d) (hi : ¬ isDir i)
    (hnew : ∀ j, ¬ has d ⟨.plain n, j⟩) (hused : ∀ j, used j → used' j) (hui : used' i)
    (hhas : ∀ d' e, has' d' e ↔ has d' e ∨ d' = d ∧ e = ⟨.plain n, i⟩) :
    Tree root used' isDir has' := by
  have hold {d' : Nat} {e : Entry} (he : has d' e) : has' d' e := (hhas d' e).mpr (.inl he)
  -- a plain entry that names a directory is an old one
  have hplain {d' : Nat} {m : List UInt8} {c : Nat} (he : has' d' ⟨.plain m, c⟩)
      (hc : isDir c) : has d' ⟨.plain m, c⟩ := by
    rcases (hhas d' _).mp he with hold' | ⟨-, heq⟩
    · exact hold'
    · cases heq
      exact absurd hc hi
  refine ⟨?_, fun d' hd' => hused d' (h.exist d' hd'), ?_, ?_, fun d' hd' => hold (h.dot d' hd'),
    ?_, ?_, ⟨h.top.1, hold h.top.2⟩, ?_⟩
  · intro d' e he
    rcases (hhas d' e).mp he with he | ⟨rfl, -⟩
    · exact h.dirs d' e he
    · exact hd
  · intro d' e he
    rcases (hhas d' e).mp he with he | ⟨-, rfl⟩
    · exact hused _ (h.live d' e he)
    · exact hui
  · exact fun d' e e' => h.unique_add hnew fun d' e => (hhas d' e).mp
  · intro d' m c he hc
    obtain ⟨hdotdot, hne⟩ := h.parent d' m c (hplain he hc) hc
    exact ⟨hold hdotdot, hne⟩
  · intro d' m m' c he he' hc
    exact h.once d' m m' c (hplain he hc) (hplain he' hc) hc
  · intro c hc
    refine (h.reach c hc).lift id fun a b hab => ?_
    obtain ⟨hb, m, hm⟩ := hab
    exact ⟨hb, m, hold hm⟩

/-- A file loses a name; it is gone then, or some entry may still name it. -/
theorem removeFile (h : Tree root used isDir has) (hentry : has d ⟨.plain n, i⟩) (hi : ¬ isDir i)
    (hused : ∀ j, j ≠ i → used j → used' j)
    (hhas : ∀ d' e, has' d' e ↔ has d' e ∧ ¬ (d' = d ∧ e.name = .plain n))
    (hgone : used' i ∨ ∀ d' e, has' d' e → e.ino ≠ i) : Tree root used' isDir has' := by
  have hold {d' : Nat} {e : Entry} (he : has' d' e) : has d' e := ((hhas d' e).mp he).1
  -- an entry that names a directory stays
  have hplain {d' : Nat} {m : List UInt8} {c : Nat} (he : has d' ⟨.plain m, c⟩)
      (hc : isDir c) : has' d' ⟨.plain m, c⟩ := by
    refine (hhas d' _).mpr ⟨he, ?_⟩
    rintro ⟨rfl, hname⟩
    cases hname
    obtain rfl := h.ino_eq he hentry
    exact hi hc
  refine ⟨fun d' e he => h.dirs d' e (hold he), ?_, ?_, ?_, ?_, ?_, ?_, ⟨h.top.1, ?_⟩, ?_⟩
  · intro d' hd'
    refine hused d' ?_ (h.exist d' hd')
    rintro rfl
    exact hi hd'
  · intro d' e he
    by_cases hei : e.ino = i
    · rcases hgone with hstays | hnone
      · exact hei ▸ hstays
      · exact absurd hei (hnone d' e he)
    · exact hused _ hei (h.live d' e (hold he))
  · exact fun d' e e' he he' => h.unique d' e e' (hold he) (hold he')
  · exact fun d' hd' => (hhas d' _).mpr ⟨h.dot d' hd', fun hbad => nomatch hbad.2⟩
  · intro d' m c he hc
    obtain ⟨hdotdot, hne⟩ := h.parent d' m c (hold he) hc
    exact ⟨(hhas c _).mpr ⟨hdotdot, fun hbad => nomatch hbad.2⟩, hne⟩
  · exact fun d' m m' c he he' => h.once d' m m' c (hold he) (hold he')
  · exact (hhas root _).mpr ⟨h.top.2, fun hbad => nomatch hbad.2⟩
  · intro c hc
    refine (h.reach c hc).lift id fun a b hab => ?_
    obtain ⟨hb, m, hm⟩ := hab
    exact ⟨hb, m, hplain hm hb⟩

/-! ## Directories -/

section

variable (h : Tree root used isDir has)
include h

/-- A new directory, with its `.` and `..`. -/
theorem addDir (hd : isDir d) (hi : ¬ used i) (hnew : ∀ j, ¬ has d ⟨.plain n, j⟩)
    (hused : ∀ j, used' j ↔ used j ∨ j = i) (hisDir : ∀ j, isDir' j ↔ isDir j ∨ j = i)
    (hhas : ∀ d' e, has' d' e ↔ has d' e ∨ (d' = d ∧ e = ⟨.plain n, i⟩) ∨
      (d' = i ∧ (e = ⟨.dot, i⟩ ∨ e = ⟨.dotdot, d⟩))) : Tree root used' isDir' has' := by
  have hdi : d ≠ i := by
    rintro rfl
    exact hi (h.exist d hd)
  have hold {d' : Nat} {e : Entry} (he : has d' e) : has' d' e := (hhas d' e).mpr (.inl he)
  have hdot : has' i ⟨.dot, i⟩ := (hhas i _).mpr (.inr (.inr ⟨rfl, .inl rfl⟩))
  have hdotdot : has' i ⟨.dotdot, d⟩ := (hhas i _).mpr (.inr (.inr ⟨rfl, .inr rfl⟩))
  -- nothing of the old tree is about the new inode
  have hother {d' : Nat} {e : Entry} (he : has d' e) : d' ≠ i ∧ e.ino ≠ i :=
    ⟨fun heq => hi (heq ▸ h.exist d' (h.dirs d' e he)), fun heq => hi (heq ▸ h.live d' e he)⟩
  have hplain {d' : Nat} {m : List UInt8} {c : Nat} (he : has' d' ⟨.plain m, c⟩) :
      has d' ⟨.plain m, c⟩ ∨ d' = d ∧ m = n ∧ c = i := by
    rcases (hhas d' _).mp he with he | ⟨rfl, heq⟩ | ⟨-, heq | heq⟩
    · exact .inl he
    · cases heq
      exact .inr ⟨rfl, rfl, rfl⟩
    · cases heq
    · cases heq
  refine ⟨?_, ?_, ?_, ?_, ?_, ?_, ?_, ⟨(hisDir root).mpr (.inl h.top.1), hold h.top.2⟩, ?_⟩
  · intro d' e he
    rw [hisDir]
    rcases (hhas d' e).mp he with he | ⟨rfl, -⟩ | ⟨rfl, -⟩
    · exact .inl (h.dirs d' e he)
    · exact .inl hd
    · exact .inr rfl
  · intro d' hd'
    exact (hused d').mpr (((hisDir d').mp hd').imp_left (h.exist d'))
  · intro d' e he
    rw [hused]
    rcases (hhas d' e).mp he with he | ⟨-, rfl⟩ | ⟨-, rfl | rfl⟩
    · exact .inl (h.live d' e he)
    · exact .inr rfl
    · exact .inr rfl
    · exact .inl (h.exist d hd)
  · intro d' e e' he he' hname
    rcases (hhas d' e).mp he with he | ⟨rfl, rfl⟩ | ⟨rfl, hdots⟩
    · rcases (hhas d' e').mp he' with he' | ⟨rfl, rfl⟩ | ⟨rfl, -⟩
      · exact h.unique d' e e' he he' hname
      · obtain ⟨x, k⟩ := e
        subst hname
        exact absurd he (hnew k)
      · exact absurd rfl (hother he).1
    · rcases (hhas d' e').mp he' with he' | ⟨-, rfl⟩ | ⟨hbad, -⟩
      · obtain ⟨x, k⟩ := e'
        subst hname
        exact absurd he' (hnew k)
      · rfl
      · exact absurd hbad hdi
    rcases (hhas d' e').mp he' with he' | ⟨hbad, -⟩ | ⟨-, hdots'⟩
    · exact absurd rfl (hother he').1
    · exact absurd hbad.symm hdi
    · rcases hdots with rfl | rfl <;> rcases hdots' with rfl | rfl
      · rfl
      · cases hname
      · cases hname
      · rfl
  · intro d' hd'
    rcases (hisDir d').mp hd' with hd' | rfl
    · exact hold (h.dot d' hd')
    · exact hdot
  · intro d' m c he hc
    rcases hplain he with he | ⟨rfl, -, rfl⟩
    · have hc' : isDir c := ((hisDir c).mp hc).resolve_right (hother he).2
      obtain ⟨hup, hne⟩ := h.parent d' m c he hc'
      exact ⟨hold hup, hne⟩
    · refine ⟨hdotdot, ?_⟩
      rintro rfl
      exact hi (h.exist c h.top.1)
  · intro d' m m' c he he' hc
    rcases hplain he with he | ⟨rfl, rfl, rfl⟩
    · have hci := (hother he).2
      rcases hplain he' with he' | ⟨-, -, rfl⟩
      · exact h.once d' m m' c he he' (((hisDir c).mp hc).resolve_right hci)
      · exact absurd rfl hci
    · rcases hplain he' with he' | ⟨-, rfl, -⟩
      · exact absurd rfl (hother he').2
      · rfl
  · have hmono {c : Nat} (hc : isDir c) : ReflTransGen (Child isDir' has') root c := by
      refine (h.reach c hc).lift id fun a b hab => ?_
      obtain ⟨hb, m, hm⟩ := hab
      exact ⟨(hisDir b).mpr (.inl hb), m, hold hm⟩
    intro c hc
    rcases (hisDir c).mp hc with hc' | rfl
    · exact hmono hc'
    · exact (hmono hd).tail ⟨hc, n, (hhas d _).mpr (.inr (.inl ⟨rfl, rfl⟩))⟩

/-- An empty directory goes. -/
theorem removeDir (hentry : has d ⟨.plain n, i⟩) (hi : isDir i)
    (hleaf : ∀ m j, ¬ has i ⟨.plain m, j⟩) (hused : ∀ j, used' j ↔ used j ∧ j ≠ i)
    (hisDir : ∀ j, isDir' j ↔ isDir j ∧ j ≠ i)
    (hhas : ∀ d' e, has' d' e ↔ has d' e ∧ ¬ (d' = d ∧ e.name = .plain n) ∧ d' ≠ i) :
    Tree root used' isDir' has' := by
  have hroot : root ≠ i := (h.parent d n i hentry hi).2.symm
  have hold {d' : Nat} {e : Entry} (he : has' d' e) : has d' e := ((hhas d' e).mp he).1
  have hnot {d' : Nat} {e : Entry} (he : has' d' e) : e.ino ≠ i := by
    obtain ⟨he, hne, hd'⟩ := (hhas d' e).mp he
    intro hino
    rcases h.named_leaf hentry hi hleaf he hino with hbad | ⟨hbad, -⟩
    · exact hne hbad
    · exact hd' hbad
  refine ⟨?_, ?_, ?_, ?_, ?_, ?_, ?_, ?_, ?_⟩
  · intro d' e he
    exact (hisDir d').mpr ⟨h.dirs d' e (hold he), ((hhas d' e).mp he).2.2⟩
  · intro d' hd'
    obtain ⟨hd', hne⟩ := (hisDir d').mp hd'
    exact (hused d').mpr ⟨h.exist d' hd', hne⟩
  · exact fun d' e he => (hused _).mpr ⟨h.live d' e (hold he), hnot he⟩
  · exact fun d' e e' he he' => h.unique d' e e' (hold he) (hold he')
  · intro d' hd'
    obtain ⟨hd', hne⟩ := (hisDir d').mp hd'
    exact (hhas d' _).mpr ⟨h.dot d' hd', (fun hbad => nomatch hbad.2), hne⟩
  · intro d' m c he hc
    obtain ⟨hc, hne⟩ := (hisDir c).mp hc
    obtain ⟨hup, hcr⟩ := h.parent d' m c (hold he) hc
    exact ⟨(hhas c _).mpr ⟨hup, (fun hbad => nomatch hbad.2), hne⟩, hcr⟩
  · exact fun d' m m' c he he' hc => h.once d' m m' c (hold he) (hold he') ((hisDir c).mp hc).1
  · exact ⟨(hisDir root).mpr ⟨h.top.1, hroot⟩,
      (hhas root _).mpr ⟨h.top.2, (fun hbad => nomatch hbad.2), hroot⟩⟩
  · intro c hc
    obtain ⟨hc, hne⟩ := (hisDir c).mp hc
    refine Rooted.reach_of_leaf (fun b hb => ?_) (fun a b hab hb => ?_) (h.reach c hc) hne
    · obtain ⟨-, m, hm⟩ := hb
      exact hleaf m b hm
    · obtain ⟨hdir, m, hm⟩ := hab
      refine ⟨(hisDir b).mpr ⟨hdir, hb⟩, m, (hhas a _).mpr ⟨hm, ?_, ?_⟩⟩
      · rintro ⟨rfl, hname⟩
        cases hname
        exact hb (h.ino_eq hm hentry)
      · rintro rfl
        exact hleaf m b hm

/-- A directory changes its name within its parent. -/
theorem renameDir (hentry : has d ⟨.plain n, i⟩) (hi : isDir i) (hnew : ∀ j, ¬ has d ⟨.plain m, j⟩)
    (hhas : ∀ d' e, has' d' e ↔
      (has d' e ∧ ¬ (d' = d ∧ e.name = .plain n)) ∨ (d' = d ∧ e = ⟨.plain m, i⟩)) :
    Tree root used isDir has' := by
  have hkeep {d' : Nat} {e : Entry} (he : has d' e) (hne : ¬ (d' = d ∧ e.name = .plain n)) :
      has' d' e := (hhas d' e).mpr (.inl ⟨he, hne⟩)
  -- the parent of every directory is as before
  have hchild {d' c : Nat} (hc : isDir c) :
      (∃ x, has' d' ⟨.plain x, c⟩) ↔ ∃ x, has d' ⟨.plain x, c⟩ := by
    constructor
    · rintro ⟨x, hx⟩
      rcases (hhas d' _).mp hx with ⟨hx, -⟩ | ⟨rfl, heq⟩
      · exact ⟨x, hx⟩
      · cases heq
        exact ⟨n, hentry⟩
    · rintro ⟨x, hx⟩
      by_cases hthis : d' = d ∧ x = n
      · obtain ⟨rfl, rfl⟩ := hthis
        obtain rfl := h.ino_eq hx hentry
        exact ⟨m, (hhas d' _).mpr (.inr ⟨rfl, rfl⟩)⟩
      · exact ⟨x, hkeep hx fun hbad => hthis ⟨hbad.1, by cases hbad.2; rfl⟩⟩
  refine ⟨?_, h.exist, ?_, ?_, ?_, ?_, ?_, ⟨h.top.1, ?_⟩, ?_⟩
  · intro d' e he
    rcases (hhas d' e).mp he with ⟨he, -⟩ | ⟨rfl, -⟩
    · exact h.dirs d' e he
    · exact h.dirs d' _ hentry
  · intro d' e he
    rcases (hhas d' e).mp he with ⟨he, -⟩ | ⟨-, rfl⟩
    · exact h.live d' e he
    · exact h.exist i hi
  · exact fun d' e e' => h.unique_add hnew fun d' e he => ((hhas d' e).mp he).imp_left And.left
  · exact fun d' hd' => hkeep (h.dot d' hd') fun hbad => nomatch hbad.2
  · intro d' x c he hc
    obtain ⟨y, hy⟩ := (hchild hc).mp ⟨x, he⟩
    obtain ⟨hup, hne⟩ := h.parent d' y c hy hc
    exact ⟨hkeep hup (fun hbad => nomatch hbad.2), hne⟩
  · intro d' x x' c he he' hc
    rcases (hhas d' _).mp he with ⟨he, hne⟩ | ⟨rfl, heq⟩
    · rcases (hhas d' _).mp he' with ⟨he', -⟩ | ⟨rfl, heq'⟩
      · exact h.once d' x x' c he he' hc
      · -- both names of the directory in its parent, so the old name was the one dropped
        cases heq'
        exact absurd ⟨rfl, congrArg Name.plain (h.once d' x n i he hentry hc)⟩ hne
    · cases heq
      rcases (hhas d' _).mp he' with ⟨he', hne⟩ | ⟨-, heq'⟩
      · exact absurd ⟨rfl, congrArg Name.plain (h.once d' x' n i he' hentry hc)⟩ hne
      · cases heq'
        rfl
  · exact hkeep h.top.2 fun hbad => nomatch hbad.2
  · intro c hc
    refine (h.reach c hc).lift id fun a b hab => ?_
    obtain ⟨hb, hx⟩ := hab
    exact ⟨hb, (hchild hb).mpr hx⟩

end

end Tree

end ArcKernel.Names
