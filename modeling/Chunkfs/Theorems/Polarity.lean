import Chunkfs.Theorems.Frames

/-! A chunkfs dentry and its client dentry have an inode together or not at all. -/

namespace Chunkfs
namespace Dcache
variable {s t : Cache} {d d' cd : Nat} {c : ClientIno} {p : Priv}

/-! ### Twins -/

/-- The client dentry of a dentry that the VFS has not released. --/
def Cache.Twin (s : Cache) (d cd : Nat) : Prop :=
  (s.dentry d).freed = false ∧ ∃ p, (s.dentry d).fsdata = some p ∧ p.clientDentry = some cd

/-- A cached dentry has a client dentry, and is negative if and only if that is. --/
def Cache.Polar (s : Cache) : Prop :=
  ∀ d, (s.dentry d).hashed = true → (s.dentry d).freed = false →
    ∃ cd, s.Twin d cd ∧ ((s.dentry d).inode = none ↔ (s.clientDentry cd).inode = none)

/-- The client's creating operations and its link are given a negative client dentry. --/
def GivesNegative (s : Cache) : Event → Prop
  | .create d _ | .mkdir d _ | .symlink d _ | .mknod d _ | .link _ d _ =>
    ∀ p, (s.dentry d).fsdata = some p → ∃ cd, p.clientDentry = some cd ∧ (s.clientDentry cd).inode = none
  | _ => True

/-- What the events keep. Only client dentries that have an inode stand for several dentries. --/
structure Twins (s : Cache) : Prop where
  polar : ∀ d cd, s.Twin d cd → ((s.dentry d).inode = none ↔ (s.clientDentry cd).inode = none)
  single : ∀ d d' cd, s.Twin d cd → s.Twin d' cd → (s.clientDentry cd).inode = none → d = d'
  known : ∀ d cd, s.Twin d cd → cd < s.cdnext
  hashed : ∀ d, (s.dentry d).hashed = true → (s.dentry d).freed = false → ∃ cd, s.Twin d cd
  full : ∀ d p, (s.dentry d).inUse = true → (s.dentry d).freed = false → (s.dentry d).fsdata = some p →
    (∃ cd, p.clientDentry = some cd) ∧ ((s.dentry d).inode = none → (s.dentry d).hashed = true)

theorem Twins.isPolar (h : Twins s) : s.Polar := by
  intro d hh hf
  obtain ⟨cd, hcd⟩ := h.hashed d hh hf
  exact ⟨cd, hcd, h.polar d cd hcd⟩

/-- The VFS asks for a new inode where there is none. --/
theorem Twins.negative (h : Twins s) (hneg : s.isNegative d = true) (hp : (s.dentry d).fsdata = some p) :
    ∃ cd, p.clientDentry = some cd ∧ (s.clientDentry cd).inode = none := by
  obtain ⟨huse, hfree, hnone, -⟩ := isNegative_iff.mp hneg
  obtain ⟨⟨cd, hcd⟩, -⟩ := h.full d p huse hfree hp
  exact ⟨cd, hcd, (h.polar d cd ⟨hfree, p, hp, hcd⟩).mp hnone⟩

theorem Twins.gives (h : Twins s) (e : Event) (hallows : s.allows e = true) : GivesNegative s e := by
  cases e with
  | create d a | mkdir d a | symlink d a | mknod d a => exact fun p hp => h.negative hallows hp
  | link old new answer =>
    simp only [Cache.allows, Bool.and_eq_true] at hallows
    exact fun p hp => h.negative hallows.2 hp
  | lookup _ _ | unlink _ _ _ | rmdir _ _ _ | release _ | setattr _ _ | writeInode _ => exact trivial

/-- A cached dentry without an inode whose twin has one. --/
theorem Cache.not_polar (d cd : Nat) (hcd : t.Twin d cd) (hh : (t.dentry d).hashed = true)
    (hnone : (t.dentry d).inode = none) (hpos : (t.clientDentry cd).inode ≠ none) : ¬t.Polar := by
  intro ht
  obtain ⟨hfree, p, hp, hpcd⟩ := hcd
  obtain ⟨cd', ⟨-, q, hq, hqcd⟩, hiff⟩ := ht d hh hfree
  rw [hp] at hq
  cases hq
  rw [hpcd] at hqcd
  cases hqcd
  exact hpos (hiff.mp hnone)

/-! ### The events -/

/-- The calls that leave a dentry and its twin apart: a removal that works and keeps the dentry, and a creation
    that the client has done and chunkfs cannot finish. --/
def Event.Parts : Event → Prop
  | .unlink _ answer keep | .rmdir _ answer keep => answer = none ∧ keep = true
  | .create _ a | .mkdir _ a | .symlink _ a | .mknod _ a =>
    (∃ slot, a.inode = .good slot) ∧ (∃ c, a.client = .ok c) ∧ a.cont ≠ none
  | _ => False

section Steps
variable (h : Twins s)
include h

/-- One dentry changes, and of the client dentries that are known only its twin may get an inode. --/
theorem Twins.change {D : Dentry} (hD : t.dentry = Function.update s.dentry d D) (hcdnext : s.cdnext ≤ t.cdnext)
    (hclient : ∀ k < s.cdnext, (t.clientDentry k).inode = (s.clientDentry k).inode ∨
      s.Twin d k ∧ (s.clientDentry k).inode = none)
    (htwin : ∀ cd, t.Twin d cd → cd < t.cdnext ∧ (D.inode = none ↔ (t.clientDentry cd).inode = none) ∧
      (cd < s.cdnext → (t.clientDentry cd).inode = none → s.Twin d cd))
    (hhashed : D.hashed = true → D.freed = false → ∃ cd, t.Twin d cd)
    (hfull : ∀ p, D.inUse = true → D.freed = false → D.fsdata = some p →
      (∃ cd, p.clientDentry = some cd) ∧ (D.inode = none → D.hashed = true)) : Twins t := by
  have hother : ∀ {k}, k ≠ d → t.dentry k = s.dentry k := fun hk => by simp [hD, hk]
  have hthis : t.dentry d = D := by simp [hD]
  have htwins : ∀ {k cd}, k ≠ d → t.Twin k cd → s.Twin k cd := by
    intro k cd hk hcd
    unfold Cache.Twin at hcd
    rwa [hother hk] at hcd
  -- The twin of another dentry keeps its inode: it is not the twin of this one unless it has one.
  have hkept : ∀ {k cd}, k ≠ d → s.Twin k cd → (t.clientDentry cd).inode = (s.clientDentry cd).inode := by
    intro k cd hk hcd
    rcases hclient cd (h.known k cd hcd) with hsame | ⟨hd, hneg⟩
    · exact hsame
    · exact absurd (h.single k d cd hcd hd hneg) hk
  have hapart : ∀ {k cd}, k ≠ d → t.Twin k cd → t.Twin d cd → (t.clientDentry cd).inode ≠ none := by
    intro k cd hk hcd hd hneg
    have hs := htwins hk hcd
    have hsd := (htwin cd hd).2.2 (h.known k cd hs) hneg
    rw [hkept hk hs] at hneg
    exact hk (h.single k d cd hs hsd hneg)
  refine ⟨?_, ?_, ?_, ?_, ?_⟩
  · intro k cd hcd
    by_cases hk : k = d
    · subst hk
      rw [hthis]
      exact (htwin cd hcd).2.1
    · rw [hother hk, hkept hk (htwins hk hcd)]
      exact h.polar k cd (htwins hk hcd)
  · intro k k' cd hcd hcd' hneg
    by_cases hk : k = d
    · by_cases hk' : k' = d
      · rw [hk, hk']
      · subst hk
        exact absurd hneg (hapart hk' hcd' hcd)
    · by_cases hk' : k' = d
      · subst hk'
        exact absurd hneg (hapart hk hcd hcd')
      · rw [hkept hk (htwins hk hcd)] at hneg
        exact h.single k k' cd (htwins hk hcd) (htwins hk' hcd') hneg
  · intro k cd hcd
    by_cases hk : k = d
    · subst hk
      exact (htwin cd hcd).1
    · exact (h.known k cd (htwins hk hcd)).trans_le hcdnext
  · intro k hh hf
    by_cases hk : k = d
    · subst hk
      rw [hthis] at hh hf
      exact hhashed hh hf
    · rw [hother hk] at hh hf
      obtain ⟨cd, hcd⟩ := h.hashed k hh hf
      refine ⟨cd, ?_⟩
      unfold Cache.Twin
      rwa [hother hk]
  · intro k p huse hfree hp
    by_cases hk : k = d
    · subst hk
      rw [hthis] at huse hfree hp ⊢
      exact hfull p huse hfree hp
    · rw [hother hk] at huse hfree hp ⊢
      exact h.full k p huse hfree hp

/-- A change that no twin sees. --/
theorem Twins.same (hinode : ∀ k, (t.clientDentry k).inode = (s.clientDentry k).inode) (hcdnext : s.cdnext ≤ t.cdnext)
    (hD : t.dentry = s.dentry) : Twins t := by
  have htwin : ∀ cd, t.Twin 0 cd ↔ s.Twin 0 cd := by
    intro cd
    unfold Cache.Twin
    rw [hD]
  refine h.change (d := 0) (D := s.dentry 0) (by simp [hD]) hcdnext (fun k _ => Or.inl (hinode k)) ?_ ?_ (h.full 0)
  · intro cd hcd
    have hcd' := (htwin cd).mp hcd
    refine ⟨(h.known 0 cd hcd').trans_le hcdnext, ?_, fun _ _ => hcd'⟩
    rw [hinode]
    exact h.polar 0 cd hcd'
  · intro hh hf
    obtain ⟨cd, hcd⟩ := h.hashed 0 hh hf
    exact ⟨cd, (htwin cd).mpr hcd⟩

theorem Twins.look {parent : Nat} {a : Answers} (hr : LookReturns s parent a t) (halias : s.hasAlias a.client = true) :
    Twins t := by
  obtain ⟨hcdnext, hkept, D, hD, hfree, hentry⟩ := hr.entry halias
  have hthis : t.dentry s.dnext = D := by simp [hD]
  have htwin : ∀ cd, t.Twin s.dnext cd ↔ ∃ p, D.fsdata = some p ∧ p.clientDentry = some cd := by
    intro cd
    unfold Cache.Twin
    rw [hthis]
    simp [hfree]
  refine h.change hD hcdnext (fun k hk => Or.inl (hkept k hk)) ?_ ?_ ?_
  · intro cd hcd
    obtain ⟨p, hp, hpcd⟩ := (htwin cd).mp hcd
    cases hentry with
    | bare hnone _ _ =>
      rw [hnone] at hp
      cases hp
    | twin cd' hp' _ hlt hi hnew =>
      rw [hp'] at hp
      cases hp
      cases hpcd
      exact ⟨hlt, hi, fun hold hneg => absurd (hnew hneg) hold.ne⟩
  · intro hh _
    cases hentry with
    | bare _ hnot _ =>
      rw [hnot] at hh
      cases hh
    | twin cd' hp' _ _ _ _ => exact ⟨cd', (htwin cd').mpr ⟨_, hp', rfl⟩⟩
  · intro p _ _ hp
    cases hentry with
    | bare hnone _ _ =>
      rw [hnone] at hp
      cases hp
    | twin cd' hp' hh _ _ _ =>
      rw [hp'] at hp
      cases hp
      exact ⟨⟨cd', rfl⟩, fun _ => hh⟩

/-- A dentry and its twin get an inode together. --/
theorem Twins.instantiate {i : Nat} (hneg : s.isNegative d = true) (hp : (s.dentry d).fsdata = some p)
    (hcd : p.clientDentry = some cd) (hD : t.dentry = Function.update s.dentry d { s.dentry d with inode := some i })
    (hcdnext : t.cdnext = s.cdnext) (hclient : ∀ k, k ≠ cd → (t.clientDentry k).inode = (s.clientDentry k).inode)
    (hpos : (t.clientDentry cd).inode ≠ none) : Twins t := by
  obtain ⟨huse, hfree, hnone, -⟩ := isNegative_iff.mp hneg
  have htwin : s.Twin d cd := ⟨hfree, p, hp, hcd⟩
  have hthis : ∀ cd', t.Twin d cd' ↔ cd' = cd := by
    intro cd'
    unfold Cache.Twin
    rw [hD]
    simp [hfree, hp, hcd, eq_comm]
  refine h.change hD hcdnext.ge (fun k _ => ?_) ?_ ?_ ?_
  · by_cases hk : k = cd
    · subst hk
      exact Or.inr ⟨htwin, (h.polar d k htwin).mp hnone⟩
    · exact Or.inl (hclient k hk)
  · intro cd' hcd'
    cases (hthis cd').mp hcd'
    refine ⟨hcdnext ▸ h.known d cd htwin, ?_, fun _ hn => absurd hn hpos⟩
    simp [hpos]
  · exact fun _ _ => ⟨cd, (hthis cd).mpr rfl⟩
  · intro q _ _ hq
    rw [hp] at hq
    cases hq
    exact ⟨⟨cd, hcd⟩, nofun⟩

theorem Twins.make {isDir : Bool} {a : MakeAnswers} {dir : Nat} {cdir : ClientIno} (hargs : MakeArgs s d dir cdir p)
    (hr : MakeReturns s d isDir a dir cdir p t) (hneg : s.isNegative d = true)
    (hgood : ¬((∃ slot, a.inode = .good slot) ∧ (∃ c, a.client = .ok c) ∧ a.cont ≠ none)) : Twins t := by
  cases hr with
  | bad slot _ => exact h.same (fun _ => rfl) (Nat.le_refl _) rfl
  | refused slot e _ _ => exact h.same (fun _ => by simp) (by simp) (by simp)
  | unfinished slot c cd e hi hc _ _ he =>
    refine absurd ⟨⟨slot, hi⟩, ⟨c, hc⟩, ?_⟩ hgood
    rw [he]
    nofun
  | made slot c cd chunkId _ _ hcd _ _ =>
    refine h.instantiate (i := s.inext) hneg hargs.priv hcd (by simp) (by simp) (fun k hk => ?_) ?_
    · simp [hk]
    · simp

theorem Twins.remove {answer : Option Errno} {keep : Bool} (hr : RemoveReturns s d answer keep t)
    (hgood : ¬(answer = none ∧ keep = true)) : Twins t := by
  cases hr with
  | refused e _ => exact h
  | removed dir i cdir c p he _ hi _ _ _ =>
    cases keep with
    | true => exact absurd ⟨he, rfl⟩ hgood
    | false =>
      have htwin : ∀ cd, (Cache.Twin (((s.copyUp dir cdir).copyUp i c).updDentry d fun x => { x with hashed := false })
          d cd) ↔ s.Twin d cd := by
        intro cd
        simp [Cache.Twin]
      refine h.change (d := d) (D := { s.dentry d with hashed := false }) (by simp) (by simp) (fun k _ => Or.inl (by simp))
        ?_ nofun ?_
      · intro cd hcd
        have hcd' := (htwin cd).mp hcd
        exact ⟨h.known d cd hcd', h.polar d cd hcd', fun _ _ => hcd'⟩
      · intro p huse hfree hp
        refine ⟨(h.full d p huse hfree hp).1, fun hn => ?_⟩
        rw [hi] at hn
        cases hn

theorem Twins.kill (hr : KillReturns s d t) : Twins t := by
  obtain ⟨-, q, -, hD⟩ := hr.dentry
  have hclient : t.cdnext = s.cdnext ∧ ∀ k, (t.clientDentry k).inode = (s.clientDentry k).inode := by
    cases hr with
    | plain _ _ => exact ⟨by simp, fun k => by simp⟩
    | priv _ _ _ _ => exact ⟨by simp, fun k => by simp⟩
  refine h.change hD hclient.1.ge (fun k _ => Or.inl (hclient.2 k)) ?_ nofun nofun
  rintro cd ⟨hfree, -⟩
  simp [hD] at hfree

theorem Twins.make_bad {isDir : Bool} {a : MakeAnswers} {dir : Nat} {cdir : ClientIno} (hargs : MakeArgs s d dir cdir p)
    (hr : MakeReturns s d isDir a dir cdir p t) (hneg : s.isNegative d = true)
    (hbad : (∃ slot, a.inode = .good slot) ∧ (∃ c, a.client = .ok c) ∧ a.cont ≠ none) : ¬t.Polar := by
  obtain ⟨huse, hfree, hnone, -⟩ := isNegative_iff.mp hneg
  obtain ⟨⟨slot, hi⟩, ⟨c, hc⟩, he⟩ := hbad
  cases hr with
  | bad slot' hi' => rw [hi'] at hi; cases hi
  | refused slot' e _ hc' => rw [hc'] at hc; cases hc
  | unfinished slot' c' cd e _ _ hcd _ _ =>
    have hh := (h.full d p huse hfree hargs.priv).2 hnone
    refine Cache.not_polar d cd ⟨?_, p, ?_, hcd⟩ ?_ ?_ ?_
    · simpa using hfree
    · simpa using hargs.priv
    · simpa using hh
    · simpa using hnone
    · simp
  | made slot' c' cd chunkId _ _ _ _ he' => exact absurd he' he

theorem Twins.remove_bad {answer : Option Errno} {keep isDir : Bool} (hr : RemoveReturns s d answer keep t)
    (hpos : s.isRemovable d isDir = true) (hbad : answer = none ∧ keep = true) : ¬t.Polar := by
  obtain ⟨hpos, hh, -⟩ := isRemovable_iff.mp hpos
  obtain ⟨-, hfree, i', hi', -⟩ := isPositive_iff.mp hpos
  obtain ⟨cd, hcd⟩ := h.hashed d hh hfree
  cases hr with
  | refused e he =>
    rw [hbad.1] at he
    cases he
  | removed dir i cdir c p _ _ _ hp _ _ =>
    rw [hbad.2]
    obtain ⟨-, q, hq, hqcd⟩ := hcd
    refine Cache.not_polar d cd ⟨?_, q, ?_, hqcd⟩ ?_ ?_ ?_
    · simpa using hfree
    · simpa using hq
    · simpa using hh
    · simp
    · intro hn
      have := (h.polar d cd ⟨hfree, q, hq, hqcd⟩).mpr (by simpa using hn)
      rw [hi'] at this
      cases this

theorem Twins.keeps {e : Event} (hallows : s.allows e = true) (hr : e.Returns s t) (hgood : ¬e.Parts) : Twins t := by
  cases e with
  | lookup parent a =>
    simp only [Cache.allows, Bool.and_eq_true] at hallows
    exact h.look hr hallows.2
  | create d a | mkdir d a | symlink d a | mknod d a =>
    obtain ⟨dir, cdir, p, hargs, hr⟩ := hr
    exact h.make hargs hr hallows hgood
  | link old new answer =>
    simp only [Cache.allows, Bool.and_eq_true] at hallows
    cases hr with
    | refused e _ => exact h
    | linked dir i cdOld cdNew c cOld p q _ _ _ _ _ _ _ _ _ hq hnew _ =>
      refine h.instantiate (i := i) hallows.2 hq hnew (by simp) (by simp) (fun k hk => ?_) ?_
      · simp [hk]
      · simp
  | unlink d answer keep | rmdir d answer keep => exact h.remove hr hgood
  | release d => exact h.kill hr
  | setattr d answer =>
    cases hr with
    | refused e _ => exact h
    | changed i cd c c' p _ _ _ _ _ _ _ => exact h.same (fun _ => rfl) (Nat.le_refl _) rfl
  | writeInode i =>
    obtain ⟨c, -, -, rfl⟩ := hr
    exact h.same (fun _ => rfl) (Nat.le_refl _) rfl

theorem Twins.not_kept {e : Event} (hallows : s.allows e = true) (hr : e.Returns s t) (hbad : e.Parts) : ¬t.Polar := by
  cases e with
  | create d a | mkdir d a | symlink d a | mknod d a =>
    obtain ⟨dir, cdir, p, hargs, hr⟩ := hr
    exact h.make_bad hargs hr hallows hbad
  | unlink d answer keep | rmdir d answer keep => exact h.remove_bad hr hallows hbad
  | lookup _ _ | link _ _ _ | release _ | setattr _ _ | writeInode _ => exact hbad.elim

end Steps

/-! ### Runs -/

theorem mounted_twins (c : ClientIno) (chunkId : Nat) : Twins (mounted c chunkId) := by
  have htwin : ∀ d cd, (mounted c chunkId).Twin d cd → d = 0 ∧ cd = 0 := by
    rintro d cd ⟨-, p, hp, hcd⟩
    cases d with
    | zero =>
      cases hp
      cases hcd
      exact ⟨rfl, rfl⟩
    | succ d => cases hp
  refine ⟨?_, ?_, ?_, ?_, ?_⟩
  · intro d cd hcd
    obtain ⟨rfl, rfl⟩ := htwin d cd hcd
    exact ⟨nofun, nofun⟩
  · intro d d' cd hd hd' _
    rw [(htwin d cd hd).1, (htwin d' cd hd').1]
  · intro d cd hcd
    rw [(htwin d cd hcd).2]
    exact Nat.one_pos
  · intro d hh _
    cases d with
    | zero => exact ⟨0, rfl, _, rfl, rfl⟩
    | succ d => cases hh
  · intro d p huse _ hp
    cases d with
    | zero =>
      cases hp
      exact ⟨⟨0, rfl⟩, fun _ => rfl⟩
    | succ d => cases huse

/-- The runs in which cached dentries and their client dentries have inodes together, and the client is only asked
    to fill negative ones, are those in which no removal keeps the dentry and every creation that the client has
    done is finished. --/
theorem polar_iff_no_parting {c : ClientIno} {chunkId : Nat} {es : List Event}
    (hrun : (Run.run step (.ok (mounted c chunkId)) es).isSome) :
    Run.Always step (InCache Cache.Polar) (OfCall GivesNegative) (.ok (mounted c chunkId)) es ↔
      Run.Each step (Avoids fun _ e => e.Parts) (.ok (mounted c chunkId)) es :=
  always_iff_avoids (fun _ h => h.isPolar) (fun _ e h ha => h.gives e ha) (fun _ _ _ h ha hr hg => h.keeps ha hr hg)
    (fun _ _ _ h ha hr hb => h.not_kept ha hr hb) (mounted_twins c chunkId) hrun

/-- A file is made, removed, dropped, looked up and made again. --/
theorem polar_made_again : Run.Always step (InCache Cache.Polar) (OfCall GivesNegative) (.ok (mounted ⟨1, 12⟩ 1))
    [.lookup 0 ⟨true, true, true, true, .absent, .good .null, none⟩, .create 1 ⟨.good .null, 0, .ok ⟨1, 13⟩, none⟩,
      .unlink 1 none false, .release 1, .lookup 0 ⟨true, true, true, true, .absent, .good .null, none⟩,
      .create 2 ⟨.good .null, 0, .ok ⟨1, 13⟩, none⟩] :=
  (polar_iff_no_parting (by decide)).mpr (Run.each_of_forall (by simp [Avoids, Event.Parts]))

/-- A name that was removed and kept is made again: the client is given a dentry with an inode. --/
theorem create_after_unlink_given_positive :
    ¬Run.Always step (InCache Cache.Polar) (OfCall GivesNegative) (.ok (mounted ⟨1, 12⟩ 1))
      [.lookup 0 ⟨true, true, true, true, .absent, .good .null, none⟩, .create 1 ⟨.good .null, 0, .ok ⟨1, 13⟩, none⟩,
        .unlink 1 none true, .create 1 ⟨.good .null, 0, .ok ⟨1, 14⟩, none⟩] := by
  intro ha
  obtain ⟨cd, hcd, hneg⟩ := (ha.2.2 _ rfl).2.2 _ rfl |>.2.2 _ rfl |>.2.1 _ rfl rfl _ rfl
  cases hcd
  cases hneg

end Dcache
end Chunkfs
