import Chunkfs.Theorems.Frames

/-! The count of a chunkfs inode against the dentries it is attached to. -/

namespace Chunkfs
namespace Dcache
open Tally
variable {s t : Cache} {d i : Nat} {c : ClientIno} {p : Priv} {slot : Slot}

/-! ### The count and the names -/

/-- The number of dentries of an inode. --/
def Cache.names (s : Cache) (i : Nat) : Nat := tally s.dnext fun d => (s.dentry d).inode == some i

/-- The count of every inode is that of its dentries, so that no dentry has an inode that was evicted and no inode
    outlives its dentries. --/
structure Cache.Counted (s : Cache) : Prop where
  count : ∀ i, (s.inode i).count = s.names i
  held : ∀ d < s.dnext, ∀ i, (s.dentry d).inode = some i → (s.inode i).count ≠ 0
  gone : ∀ i, (∀ d < s.dnext, (s.dentry d).inode ≠ some i) → (s.inode i).count = 0

/-- What the events keep: besides the counts, that dentries and their inodes are known. --/
structure Counting (s : Cache) : Prop where
  count : ∀ i, (s.inode i).count = s.names i
  inode : ∀ d i, (s.dentry d).inode = some i → d < s.dnext ∧ i < s.inext
  inUse : ∀ d, (s.dentry d).inUse = true → d < s.dnext

theorem Counting.counted (h : Counting s) : s.Counted where
  count := h.count
  held d hd i hi := by
    rw [h.count i]
    exact Nat.pos_iff_ne_zero.mp (tally_pos hd (by simp [hi]))
  gone i hi := by
    rw [h.count i]
    exact tally_eq_zero fun d hd => by simp [hi d hd]

/-- An inode that is not known yet has no dentry. --/
theorem Counting.fresh (h : Counting s) : (s.inode s.inext).count = 0 := by
  rw [h.count]
  refine tally_eq_zero fun d _ => ?_
  rw [beq_eq_false_iff_ne]
  intro hi
  exact Nat.lt_irrefl _ (h.inode d _ hi).2

/-- How the number of names changes with one dentry. --/
theorem Counting.names_change (h : Counting s) {D : Dentry} (hdnext : s.dnext ≤ t.dnext) (hd : d < t.dnext)
    (hD : t.dentry = Function.update s.dentry d D) (i : Nat) :
    t.names i + (if (s.dentry d).inode = some i then 1 else 0) = s.names i + if D.inode = some i then 1 else 0 := by
  have hchange := tally_update (f := s.dentry) (r := fun E => E.inode == some i) D hdnext hd fun k hk => by
    rw [beq_eq_false_iff_ne]
    intro hi
    exact absurd (h.inode k i hi).1 (Nat.not_lt.mpr hk)
  unfold Cache.names
  rw [hD]
  simpa using hchange

/-- Whether the counts still fit after a change of one dentry. --/
theorem Counting.change (h : Counting s) {D : Dentry} (hdnext : s.dnext ≤ t.dnext) (hd : d < t.dnext)
    (hD : t.dentry = Function.update s.dentry d D) (hinext : s.inext ≤ t.inext)
    (hi : ∀ i, D.inode = some i → i < t.inext)
    (hcount : ∀ i, (t.inode i).count + (if (s.dentry d).inode = some i then 1 else 0) =
      (s.inode i).count + if D.inode = some i then 1 else 0) : Counting t where
  count i := by
    have hn := h.names_change hdnext hd hD i
    have hc := hcount i
    rw [h.count i] at hc
    omega
  inode k i hk := by
    rw [hD, Function.update_apply] at hk
    split at hk
    · rename_i hkd
      exact ⟨hkd ▸ hd, hi i hk⟩
    · have := h.inode k i hk
      omega
  inUse k hk := by
    rw [hD, Function.update_apply] at hk
    split at hk
    · rename_i hkd
      exact hkd ▸ hd
    · have := h.inUse k hk
      omega

/-! ### The events -/

/-- The calls that leave a count wrong: a link that works, a bad inode, and a lookup that finds an inode and then
    cannot go on. --/
def Event.Miscounts : Event → Prop
  | .lookup _ a => a.Leaks
  | .create _ a | .mkdir _ a | .symlink _ a | .mknod _ a => ∃ slot, a.inode = .bad slot
  | .link _ _ answer => answer = none
  | _ => False

section Steps
variable (h : Counting s)
include h

theorem Counting.newest : (s.dentry s.dnext).inode = none := by
  cases hi : (s.dentry s.dnext).inode with
  | none => rfl
  | some i => exact absurd (h.inode _ i hi).1 (Nat.lt_irrefl _)

/-- An inode in memory without a dentry is a wrong count. --/
theorem Counting.not_counted_of_stray (hinode : t.inode = (s.addInode slot).inode) {D : Dentry}
    (hdnext : s.dnext ≤ t.dnext) (hd : d < t.dnext) (hD : t.dentry = Function.update s.dentry d D)
    (hDi : D.inode ≠ some s.inext) : ¬t.Counted := by
  intro ht
  have hn := h.names_change hdnext hd hD s.inext
  rw [if_neg hDi, ← h.count, h.fresh, ← ht.count, hinode] at hn
  simp at hn

theorem Counting.look {parent : Nat} {a : Answers} (hr : LookReturns s parent a t)
    (halias : s.hasAlias a.client = true) (hgood : ¬a.Leaks) : Counting t := by
  have hnext := hr.dentry.1
  obtain ⟨D, hD, hlook⟩ := hr.inodes halias
  have hd : s.dnext < t.dnext := by rw [hnext]; exact Nat.lt_succ_self _
  cases hlook with
  | same hDi hi hn _ =>
    refine h.change hd.le hd hD hn.ge (fun i hDi' => ?_) fun i => ?_
    · rw [hDi] at hDi'
      cases hDi'
    · rw [hi, hDi, h.newest]
  | leaked slot _ _ _ ha => exact absurd ha hgood
  | started c cd chunkId isDir hDi _ hi hn _ _ _ =>
    refine h.change hd.le hd hD (hn ▸ Nat.le_succ _) (fun i hDi' => ?_) fun i => ?_
    · rw [hDi] at hDi'
      cases hDi'
      rw [hn]
      exact Nat.lt_succ_self _
    · rw [hi, hDi, h.newest, Function.update_apply]
      by_cases hii : i = s.inext
      · subst hii
        simp [h.fresh]
      · simp [hii, Ne.symm hii]

theorem Counting.make {isDir : Bool} {a : MakeAnswers} {dir : Nat} {cdir : ClientIno}
    (hr : MakeReturns s d isDir a dir cdir p t) (hneg : s.isNegative d = true) (hgood : ¬∃ slot, a.inode = .bad slot) :
    Counting t := by
  obtain ⟨huse, -, hnone, -⟩ := isNegative_iff.mp hneg
  have hd := h.inUse d huse
  -- A new inode that is put again was never there.
  have hput : ∀ {u : Cache}, u.dnext = s.dnext → u.dentry = s.dentry → u.inext = s.inext + 1 →
      (∀ i, (u.inode i).count = (s.inode i).count) → Counting u := by
    intro u hdn hde hin hc
    refine h.change (D := s.dentry d) hdn.ge (hdn ▸ hd) (by rw [hde]; simp) (hin ▸ Nat.le_succ _) (fun i hi => ?_)
      fun i => by rw [hc i]
    rw [hnone] at hi
    cases hi
  cases hr with
  | bad slot hi => exact absurd ⟨slot, hi⟩ hgood
  | refused slot e _ _ =>
    refine hput (by simp) (by simp) (by simp) fun i => ?_
    by_cases hi : i = s.inext
    · subst hi
      simp [h.fresh]
    · simp [hi]
  | unfinished slot c cd e _ _ _ _ _ =>
    refine hput (by simp) (by simp) (by simp) fun i => ?_
    by_cases hi : i = s.inext
    · subst hi
      simp [h.fresh]
    · simp [hi]
  | made slot c cd chunkId _ _ _ _ _ =>
    refine h.change (d := d) (D := { s.dentry d with inode := some s.inext }) (by simp) (by simpa using hd) (by simp)
      (by simp) (fun i hi => ?_) fun i => ?_
    · cases hi
      simp
    · rw [Cache.updDentry_inode, copyUp_count, start_count, hnone]
      by_cases hi : i = s.inext
      · subst hi
        simp [h.fresh]
      · simp [hi, Ne.symm hi]

theorem Counting.make_bad {isDir : Bool} {a : MakeAnswers} {dir : Nat} {cdir : ClientIno}
    (hr : MakeReturns s d isDir a dir cdir p t) (hneg : s.isNegative d = true) (hbad : ∃ slot, a.inode = .bad slot) :
    ¬t.Counted := by
  obtain ⟨slot, hbad⟩ := hbad
  obtain ⟨huse, -, hnone, -⟩ := isNegative_iff.mp hneg
  cases hr with
  | bad slot' hi =>
    refine h.not_counted_of_stray (D := s.dentry d) (d := d) rfl (by simp) (h.inUse d huse) (by simp) ?_
    rw [hnone]
    nofun
  | refused slot' e hi _ => rw [hi] at hbad; cases hbad
  | unfinished slot' c cd e hi _ _ _ _ => rw [hi] at hbad; cases hbad
  | made slot' c cd chunkId hi _ _ _ _ => rw [hi] at hbad; cases hbad

/-- Of a link that works the directory has the reference. --/
theorem Counting.link_bad {old new : Nat} (hr : LinkReturns s old new none t) (hold : s.isPositive old false = true)
    (hneg : s.isNegative new = true) : ¬t.Counted := by
  intro ht
  obtain ⟨-, -, j, hj, hfile⟩ := isPositive_iff.mp hold
  obtain ⟨huse, -, hnone, hparent⟩ := isNegative_iff.mp hneg
  obtain ⟨-, dir', hdir', hisDir⟩ := isDir_iff.mp hparent
  obtain ⟨dir, i, c, hdir, hi, hD, hinode⟩ := hr.inodes
  rw [hj] at hi
  cases hi
  rw [hdir'] at hdir
  cases hdir
  -- The file is not the directory, so its count stays while it gets a name.
  have hne : j ≠ dir' := by
    intro he
    rw [he, hisDir] at hfile
    cases hfile
  have hn := h.names_change hr.dentry.1.ge (hr.dentry.1 ▸ h.inUse new huse) hD j
  rw [hnone, ← ht.count, ← h.count, hinode] at hn
  simp [hne] at hn

/-- A dentry gives its inode up. --/
theorem Counting.drop (hd : d < s.dnext) (hi : (s.dentry d).inode = some i) {D : Dentry} (hDi : D.inode = none)
    (hdnext : t.dnext = s.dnext) (hinext : t.inext = s.inext) (hD : t.dentry = Function.update s.dentry d D)
    (hcount : ∀ k, (t.inode k).count = if k = i then (s.inode k).count - 1 else (s.inode k).count) : Counting t := by
  have hheld := h.counted.held d hd i hi
  refine h.change hdnext.ge (hdnext ▸ hd) hD hinext.ge (fun k hk => ?_) fun k => ?_
  · rw [hDi] at hk
    cases hk
  · rw [hcount, hi, hDi]
    by_cases hk : k = i
    · subst hk
      simp
      omega
    · simp [hk, Ne.symm hk]

theorem Counting.remove {answer : Option Errno} {keep isDir : Bool} (hr : RemoveReturns s d answer keep t)
    (hpos : s.isRemovable d isDir = true) : Counting t := by
  obtain ⟨hpos, -⟩ := isRemovable_iff.mp hpos
  obtain ⟨huse, -⟩ := isPositive_iff.mp hpos
  have hd := h.inUse d huse
  cases hr with
  | refused e _ => exact h
  | removed dir i cdir c p _ _ hi _ _ _ =>
    cases keep with
    | true =>
      refine h.drop hd hi (D := { s.dentry d with inode := none }) rfl (by simp) (by simp) (by simp) fun k => ?_
      simp only [↓reduceIte, Cache.put_inode, Cache.updDentry_inode, Function.update_apply]
      split
      · rename_i hk
        subst hk
        simp only [copyUp_count]
      · rw [copyUp_count, copyUp_count]
    | false =>
      refine h.change (D := { s.dentry d with hashed := false }) (by simp) (by simpa using hd) (by simp) (by simp)
        (fun k hk => ?_) fun k => ?_
      · exact (h.inode d k hk).2
      · simp only [Bool.false_eq_true, ↓reduceIte, Cache.updDentry_inode, copyUp_count]

theorem Counting.kill (hr : KillReturns s d t) (hun : s.isUnused d = true) : Counting t := by
  obtain ⟨-, hd, -, -⟩ := isUnused_iff.mp hun
  obtain ⟨hdnext, q, -, hD⟩ := hr.dentry
  have hcount : t.inext = s.inext ∧ ∀ k, (t.inode k).count =
      if (s.dentry d).inode = some k then (s.inode k).count - 1 else (s.inode k).count := by
    cases hr with
    | plain _ _ => exact ⟨by simp, fun k => by simp [forget_count]⟩
    | priv p _ _ _ => exact ⟨by simp, fun k => by simp [forget_count]⟩
  cases hi : (s.dentry d).inode with
  | none =>
    refine h.change hdnext.ge (hdnext ▸ hd) hD hcount.1.ge (fun k hk => nomatch hk) fun k => ?_
    rw [hcount.2, hi]
    rfl
  | some i =>
    refine h.drop hd hi rfl hdnext hcount.1 hD fun k => ?_
    rw [hcount.2, hi]
    simp [eq_comm]

/-- The count does not depend on attributes. --/
theorem Counting.same (hdnext : t.dnext = s.dnext) (hinext : t.inext = s.inext) (hD : t.dentry = s.dentry)
    (hcount : ∀ k, (t.inode k).count = (s.inode k).count) : Counting t where
  count k := by rw [hcount, h.count, Cache.names, Cache.names, hD, hdnext]
  inode k i hk := by
    rw [hD] at hk
    rw [hdnext, hinext]
    exact h.inode k i hk
  inUse k hk := by
    rw [hD] at hk
    rw [hdnext]
    exact h.inUse k hk

/-- The calls that leave the counts as they should be. --/
theorem Counting.keeps {e : Event} (hallows : s.allows e = true) (hr : e.Returns s t) (hgood : ¬e.Miscounts) :
    Counting t := by
  cases e with
  | lookup parent a =>
    simp only [Cache.allows, Bool.and_eq_true] at hallows
    exact h.look hr hallows.2 hgood
  | create d a | mkdir d a | symlink d a | mknod d a =>
    obtain ⟨dir, cdir, p, -, hr⟩ := hr
    exact h.make hr hallows hgood
  | link old new answer =>
    cases hr with
    | refused e _ => exact h
    | linked _ _ _ _ _ _ _ _ he _ _ _ _ _ _ _ _ _ _ _ => exact absurd he hgood
  | unlink d answer keep | rmdir d answer keep => exact h.remove hr hallows
  | release d => exact h.kill hr hallows
  | setattr d answer =>
    cases hr with
    | refused e _ => exact h
    | changed i cd c c' p _ _ _ _ _ _ _ =>
      exact h.same rfl rfl rfl fun k => by rw [copyUp_count, Cache.setLast_inode, Cache.changeAttrs_inode]
  | writeInode i =>
    obtain ⟨c, -, -, rfl⟩ := hr
    exact h.same rfl rfl rfl fun _ => rfl

theorem Counting.not_kept {e : Event} (hallows : s.allows e = true) (hr : e.Returns s t) (hbad : e.Miscounts) :
    ¬t.Counted := by
  cases e with
  | lookup parent a =>
    simp only [Cache.allows, Bool.and_eq_true] at hallows
    have hnext := hr.dentry.1
    obtain ⟨D, hD, hlook⟩ := hr.inodes hallows.2
    cases hlook with
    | same _ _ _ ha => exact absurd hbad (Answers.not_leaks ha)
    | leaked slot hDi hi hn _ =>
      refine h.not_counted_of_stray hi (hnext ▸ Nat.le_succ _) (hnext ▸ Nat.lt_succ_self _) hD ?_
      rw [hDi]
      nofun
    | started _ _ _ _ _ _ _ _ ha _ _ => exact absurd hbad ha.not_leaks
  | create d a | mkdir d a | symlink d a | mknod d a =>
    obtain ⟨dir, cdir, p, -, hr⟩ := hr
    exact h.make_bad hr hallows hbad
  | link old new answer =>
    cases hbad
    simp only [Cache.allows, Bool.and_eq_true] at hallows
    exact h.link_bad hr hallows.1 hallows.2
  | unlink d answer keep | rmdir d answer keep => exact hbad.elim
  | release d => exact hbad.elim
  | setattr d answer => exact hbad.elim
  | writeInode i => exact hbad.elim

end Steps

/-! ### Runs -/

theorem mounted_counting (c : ClientIno) (chunkId : Nat) : Counting (mounted c chunkId) where
  count i := by
    cases i with
    | zero => rfl
    | succ i => rfl
  inode d i hi := by
    cases d with
    | zero =>
      cases hi
      exact ⟨Nat.one_pos, Nat.one_pos⟩
    | succ d => cases hi
  inUse d hd := by
    cases d with
    | zero => exact Nat.one_pos
    | succ d => cases hd

/-- The runs in which every count is that of the dentries of its inode are those in which no link works, no inode
    is bad, and every lookup that finds an inode goes on. --/
theorem counted_iff_no_miscount {c : ClientIno} {chunkId : Nat} {es : List Event}
    (hrun : (Run.run step (.ok (mounted c chunkId)) es).isSome) :
    Run.Always step (InCache Cache.Counted) (OfCall fun _ _ => True) (.ok (mounted c chunkId)) es ↔
      Run.Each step (Avoids fun _ e => e.Miscounts) (.ok (mounted c chunkId)) es :=
  always_iff_avoids (fun _ h => h.counted) (fun _ _ _ _ => trivial) (fun _ _ _ h ha hr hg => h.keeps ha hr hg)
    (fun _ _ _ h ha hr hb => h.not_kept ha hr hb) (mounted_counting c chunkId) hrun

/-- A file is made, found by another name, removed and forgotten. --/
theorem counted_made_and_removed : Run.Always step (InCache Cache.Counted) (OfCall fun _ _ => True)
    (.ok (mounted ⟨1, 12⟩ 1))
    [.lookup 0 ⟨true, true, true, true, .absent, .good .null, none⟩, .create 1 ⟨.good .wild, 0, .ok ⟨1, 13⟩, none⟩,
      .lookup 0 ⟨true, true, true, true, .found ⟨1, 13⟩ false, .good .null, none⟩, .unlink 1 none true, .release 1] :=
  (counted_iff_no_miscount (by decide)).mpr
    (Run.each_of_forall (by simp [Avoids, Event.Miscounts, Answers.Leaks]))

/-- After a link the file has two names and a count of 1. --/
theorem link_miscounts : ¬Run.Always step (InCache Cache.Counted) (OfCall fun _ _ => True) (.ok (mounted ⟨1, 12⟩ 1))
    [.lookup 0 ⟨true, true, true, true, .absent, .good .null, none⟩, .create 1 ⟨.good .null, 0, .ok ⟨1, 13⟩, none⟩,
      .lookup 0 ⟨true, true, true, true, .absent, .good .null, none⟩, .link 1 2 none] := by
  intro ha
  have hcount := (ha.last rfl _ rfl).count 1
  revert hcount
  decide

end Dcache
end Chunkfs
