import Chunkfs.Theorems.Frames

/-! The count of a client inode against the client dentries and the chunkfs inodes that use it. -/

namespace Chunkfs
namespace Dcache
open Tally
variable {s t : Cache} {d i cd : Nat} {c c₀ : ClientIno} {p : Priv}

/-! ### Users of a client inode -/

/-- The client dentries of a client inode. --/
def Cache.positives (s : Cache) (c : ClientIno) : Nat := tally s.cdnext fun cd => (s.clientDentry cd).inode == some c

/-- The chunkfs inodes in memory whose `ii_client_inode` is the client inode. --/
def Cache.live (s : Cache) (c : ClientIno) : Nat :=
  tally s.inext fun i => (s.inode i).count != 0 && (s.inode i).client == .set c

/-- Every client inode is counted for each of its client dentries and each chunkfs inode on it. --/
def Cache.Balanced (s : Cache) : Prop := ∀ c, (s.client c).count = s.positives c + s.live c

/-- What the count has over the client dentries. --/
def Cache.excess (s : Cache) (c : ClientIno) : Int := (s.client c).count - s.positives c

theorem excess_congr (hclient : ∀ c, (t.client c).count = (s.client c).count) (hcdnext : t.cdnext = s.cdnext)
    (hcd : ∀ k, (t.clientDentry k).inode = (s.clientDentry k).inode) (c : ClientIno) : t.excess c = s.excess c := by
  unfold Cache.excess Cache.positives
  rw [hclient, hcdnext]
  simp only [hcd]

/-- A client dentry that gets an inode is counted. --/
theorem excess_attach (hlt : cd < s.cdnext) (hneg : (s.clientDentry cd).inode = none) (c c' : ClientIno) :
    (s.attach cd c).excess c' = s.excess c' := by
  have hchange := tally_change (p := fun k => (s.clientDentry k).inode == some c')
    (q := fun k => ((s.attach cd c).clientDentry k).inode == some c') hlt (fun k hk => by simp [hk])
  simp only [hneg, Cache.attach_clientDentry, Function.update_self] at hchange
  unfold Cache.excess Cache.positives
  simp only [Cache.attach_cdnext, Cache.attach_client, Cache.attach_clientDentry, Function.update_apply]
  by_cases hc : c' = c
  · subst hc
    simp [Function.update_apply] at hchange ⊢
    omega
  · simp [hc, Ne.symm hc, Function.update_apply] at hchange ⊢
    omega

theorem excess_put_le (s : Cache) (i : Nat) (c : ClientIno) : (s.put i).excess c ≤ s.excess c := by
  unfold Cache.excess Cache.positives
  rw [Cache.put_cdnext, Cache.put_clientDentry]
  exact Int.sub_le_sub_right (s.put_client i c).1 _

theorem excess_cloned (s : Cache) (parent : Nat) (a : Answers) (c : ClientIno) : (s.cloned parent a).excess c = s.excess c := by
  unfold Cache.excess Cache.positives
  rw [Cache.cloned_client, Cache.cloned_cdnext, tally_succ, Cache.cloned_clientDentry]
  have hkept : tally s.cdnext (fun cd => (Function.update s.clientDentry s.cdnext ⟨none, 2⟩ cd).inode == some c) =
      tally s.cdnext fun cd => (s.clientDentry cd).inode == some c :=
    tally_congr fun k hk => by simp [hk.ne]
  rw [hkept]
  simp

/-- A lookup counts what it attaches. --/
theorem LookReturns.excess {parent : Nat} {a : Answers} (hr : LookReturns s parent a t) (c : ClientIno) :
    t.excess c = s.excess c := by
  have hanswered : ∀ {x cd found}, Answered s parent a x cd found → x.excess c = s.excess c := by
    intro x cd found hx
    rw [← excess_cloned s parent a]
    cases hx with
    | absent _ => rfl
    | found c' isDir _ => exact excess_attach (by simp) (by simp) c' c
    | «alias» other isDir _ =>
      refine excess_congr (fun _ => by simp) (by simp) (fun k => ?_) c
      rw [Cache.dput_clientDentry_inode, Cache.updClientDentry_clientDentry, Function.update_apply]
      split
      · rename_i hk
        rw [hk]
      · rfl
  cases hr with
  | noClone _ _ => exact excess_congr (fun _ => by simp) (by simp) (fun _ => by simp) c
  | fails _ _ _ _ =>
    rw [← excess_cloned s parent a]
    exact excess_congr (fun _ => by simp) (by simp) (fun _ => by simp) c
  | unfilled x y cd found _ _ hx hy =>
    rw [← hanswered hx]
    cases hy with
    | leaked slot _ _ => exact excess_congr (fun _ => by simp) (by simp) (fun _ => by simp) c
  | filled x y cd found _ _ hx hy =>
    rw [← hanswered hx]
    cases hy with
    | empty _ => exact excess_congr (fun _ => rfl) rfl (fun _ => rfl) c
    | started slot c' isDir chunkId _ _ _ => exact excess_congr (fun _ => rfl) rfl (fun _ => rfl) c

/-! ### The root -/

/-- What every event keeps: no count exceeds the client dentries, and the root inode stays in memory. --/
structure Rooted (c₀ : ClientIno) (s : Cache) : Prop where
  excess : ∀ c, s.excess c ≤ 0
  count : (s.inode 0).count ≠ 0
  client : (s.inode 0).client = .set c₀
  isDir : (s.inode 0).isDir = true
  sole : ∀ d, (s.dentry d).inode = some 0 → d = 0
  inext : 0 < s.inext
  known : ∀ d p cd, (s.dentry d).fsdata = some p → p.clientDentry = some cd → cd < s.cdnext

/-- The client inode of the root is counted for its client dentries at most. --/
theorem Rooted.not_balanced (h : Rooted c₀ s) : ¬s.Balanced := by
  intro hb
  have hlive : 0 < s.live c₀ := by
    refine tally_pos h.inext ?_
    simp [h.count, h.client]
  have hexcess := h.excess c₀
  unfold Cache.excess at hexcess
  rw [hb c₀] at hexcess
  omega

/-- The root inode as it was, its count and attributes apart. --/
structure RootKept (s t : Cache) : Prop where
  count : (s.inode 0).count ≠ 0 → (t.inode 0).count ≠ 0
  client : (t.inode 0).client = (s.inode 0).client
  isDir : (t.inode 0).isDir = (s.inode 0).isDir

theorem RootKept.of_eq (hi : t.inode 0 = s.inode 0) : RootKept s t := by
  refine ⟨fun h => ?_, ?_, ?_⟩
  · rwa [hi]
  · rw [hi]
  · rw [hi]

theorem RootKept.trans {u : Cache} (h₁ : RootKept s t) (h₂ : RootKept t u) : RootKept s u :=
  ⟨fun h => h₂.count (h₁.count h), h₂.client.trans h₁.client, h₂.isDir.trans h₁.isDir⟩

theorem RootKept.copyUp (s : Cache) (i : Nat) (c : ClientIno) : RootKept s (s.copyUp i c) := by
  by_cases hi : 0 = i
  · subst hi
    exact ⟨fun h => by simpa using h, by simp, by simp⟩
  · exact .of_eq (by simp [hi])

section Steps
variable (h : Rooted c₀ s)
include h

theorem Rooted.change {D : Dentry} (hD : t.dentry = Function.update s.dentry d D)
    (hexcess : ∀ c, t.excess c ≤ s.excess c) (hroot : RootKept s t) (hinext : s.inext ≤ t.inext)
    (hcdnext : s.cdnext ≤ t.cdnext) (hDi : D.inode = some 0 → d = 0)
    (hDp : ∀ p cd, D.fsdata = some p → p.clientDentry = some cd → cd < t.cdnext) : Rooted c₀ t where
  excess c := Int.le_trans (hexcess c) (h.excess c)
  count := hroot.count h.count
  client := hroot.client.trans h.client
  isDir := hroot.isDir.trans h.isDir
  sole k hk := by
    rw [hD, Function.update_apply] at hk
    split at hk
    · rename_i hkd
      exact hkd.trans (hDi hk)
    · exact h.sole k hk
  inext := h.inext.trans_le hinext
  known k p cd hp hcd := by
    rw [hD, Function.update_apply] at hp
    split at hp
    · exact hDp p cd hp hcd
    · exact (h.known k p cd hp hcd).trans_le hcdnext

theorem Rooted.look {parent : Nat} {a : Answers} (hr : LookReturns s parent a t) (halias : s.hasAlias a.client = true) :
    Rooted c₀ t := by
  have hcdnext := (hr.entry halias).1
  obtain ⟨D, hD, hentry, hinodes⟩ := hr.fills halias
  have hroot : RootKept s t ∧ s.inext ≤ t.inext ∧ D.inode ≠ some 0 := by
    cases hinodes with
    | same hDi hi hn _ =>
      refine ⟨.of_eq (by rw [hi]), hn.ge, ?_⟩
      rw [hDi]
      nofun
    | leaked slot hDi hi hn _ =>
      refine ⟨.of_eq (by simp [hi, h.inext.ne]), hn ▸ Nat.le_succ _, ?_⟩
      rw [hDi]
      nofun
    | started c cd chunkId isDir hDi _ hi hn _ _ _ =>
      refine ⟨.of_eq (by simp [hi, h.inext.ne]), hn ▸ Nat.le_succ _, ?_⟩
      rw [hDi]
      simp [h.inext.ne']
  refine h.change hD (fun c => Int.le_of_eq (hr.excess c)) hroot.1 hroot.2.1 hcdnext (fun hDi => absurd hDi hroot.2.2) ?_
  intro p cd hp hcd
  cases hentry with
  | bare hnone _ _ =>
    rw [hnone] at hp
    cases hp
  | twin cd' hp' _ hlt _ _ =>
    rw [hp'] at hp
    cases hp
    cases hcd
    exact hlt

theorem Rooted.same (hD : t.dentry = s.dentry) (hexcess : ∀ c, t.excess c ≤ s.excess c) (hroot : RootKept s t)
    (hinext : s.inext ≤ t.inext) (hcdnext : s.cdnext ≤ t.cdnext) : Rooted c₀ t :=
  h.change (d := 0) (D := s.dentry 0) (by simp [hD]) hexcess hroot hinext hcdnext (fun _ => rfl)
    fun p cd hp hcd => (h.known 0 p cd hp hcd).trans_le hcdnext

/-- The client's creating operation counts what it attaches. --/
theorem Rooted.excess_made (hp : (s.dentry d).fsdata = some p) (hcd : p.clientDentry = some cd)
    (hneg : (s.clientDentry cd).inode = none) (slot : Slot) (c c' : ClientIno) :
    (((s.addInode slot).attach cd c).changeAttrs c).excess c' = s.excess c' := by
  rw [← excess_attach (h.known d p cd hp hcd) hneg c c']
  apply excess_congr
  · intro k
    rw [Cache.changeAttrs_client, Function.update_apply]
    split
    · rename_i hk
      rw [hk]
      rfl
    · rfl
  · rfl
  · exact fun _ => rfl

theorem Rooted.make {isDir : Bool} {a : MakeAnswers} {dir : Nat} {cdir : ClientIno} (hargs : MakeArgs s d dir cdir p)
    (hr : MakeReturns s d isDir a dir cdir p t) : Rooted c₀ t := by
  have hne : 0 ≠ s.inext := h.inext.ne
  cases hr with
  | bad slot _ => exact h.same rfl (fun c => Int.le_of_eq rfl) (.of_eq (by simp [hne])) (Nat.le_succ _) (Nat.le_refl _)
  | refused slot e _ _ =>
    refine h.same (by simp) (fun c => ?_) (.of_eq (by simp [hne])) (by simp) (by simp)
    exact Int.le_trans (excess_put_le _ _ c) (Int.le_of_eq rfl)
  | unfinished slot c cd e _ _ hcd hneg _ =>
    refine h.same (by simp) (fun c' => ?_) (.of_eq (by simp [hne])) (by simp) (by simp)
    exact Int.le_trans (excess_put_le _ _ c') (Int.le_of_eq (h.excess_made hargs.priv hcd hneg slot c c'))
  | made slot c cd chunkId _ _ hcd hneg _ =>
    refine h.change (d := d) (D := { s.dentry d with inode := some s.inext }) (by simp) (fun c' => Int.le_of_eq ?_)
      ?_ (by simp) (by simp) (fun hi => ?_) ?_
    · rw [← h.excess_made hargs.priv hcd hneg slot c c']
      rfl
    · refine RootKept.trans (t := (((s.addInode slot).attach cd c).changeAttrs c).start s.inext c isDir chunkId) ?_ ?_
      · exact .of_eq (by simp [hne])
      · exact (RootKept.copyUp _ dir cdir).trans (.of_eq rfl)
    · exact absurd (Option.some.inj hi).symm hne
    · exact fun q cd' hq hcd' => h.known d q cd' hq hcd'

/-- A dentry gives up an inode, which is not the root. --/
theorem Rooted.forget (hi : (s.dentry d).inode = some i) (hd : 0 < d) : i ≠ 0 := by
  rintro rfl
  exact hd.ne' (h.sole d hi)

theorem Rooted.remove {answer : Option Errno} {keep isDir : Bool} (hr : RemoveReturns s d answer keep t)
    (hpos : s.isRemovable d isDir = true) : Rooted c₀ t := by
  obtain ⟨-, -, hd, -⟩ := isRemovable_iff.mp hpos
  cases hr with
  | refused e _ => exact h
  | removed dir i cdir c p _ _ hi _ _ _ =>
    have hup : RootKept s ((s.copyUp dir cdir).copyUp i c) := (RootKept.copyUp s dir cdir).trans (.copyUp _ i c)
    cases keep with
    | true =>
      refine h.change (d := d) (D := { s.dentry d with inode := none }) (by simp) (fun c' => ?_) ?_ (by simp) (by simp)
        nofun (by simpa using h.known d)
      · exact Int.le_trans (excess_put_le _ _ c') (Int.le_of_eq rfl)
      · refine hup.trans (.of_eq ?_)
        simp [(h.forget hi hd).symm]
    | false =>
      exact h.change (d := d) (D := { s.dentry d with hashed := false }) (by simp) (fun c' => Int.le_of_eq rfl)
        (hup.trans (.of_eq rfl)) (Nat.le_refl _) (Nat.le_refl _) (h.sole d) (h.known d)

theorem Rooted.kill (hr : KillReturns s d t) (hun : s.isUnused d = true) : Rooted c₀ t := by
  obtain ⟨hd, -, -, -⟩ := isUnused_iff.mp hun
  obtain ⟨-, q, hq, hD⟩ := hr.dentry
  have hforget : ∀ c, (s.forget d (s.dentry d).inode).excess c ≤ s.excess c := by
    intro c
    unfold Cache.forget
    split
    · exact Int.le_of_eq rfl
    · exact Int.le_trans (excess_put_le _ _ c) (Int.le_of_eq rfl)
  have hroot : (s.forget d (s.dentry d).inode).inode 0 = s.inode 0 := by
    cases hi : (s.dentry d).inode with
    | none => rfl
    | some i => simp [Cache.forget, (h.forget hi hd).symm]
  have hknown : ∀ p cd, q = some p → p.clientDentry = some cd → cd < s.cdnext := by
    intro p cd hp hcd
    rcases hq with rfl | rfl
    · cases hp
    · exact h.known d p cd hp hcd
  cases hr with
  | plain _ _ =>
    exact h.change hD hforget (.of_eq hroot) (by simp) (by simp) (fun h0 => by cases h0) (by simpa using hknown)
  | priv p _ _ _ =>
    refine h.change hD (fun c => Int.le_trans (Int.le_of_eq ?_) (hforget c)) (.of_eq (by simpa using hroot)) (by simp)
      (by simp) (fun h0 => by cases h0) (by simpa using hknown)
    exact excess_congr (fun _ => by simp) (by simp) (fun _ => by simp) c

theorem Rooted.link {old new : Nat} {answer : Option Errno} (hr : LinkReturns s old new answer t)
    (hold : s.isPositive old false = true) : Rooted c₀ t := by
  obtain ⟨-, -, j, hj, hfile⟩ := isPositive_iff.mp hold
  cases hr with
  | refused e _ => exact h
  | linked dir i cdOld cdNew c cOld p q _ _ _ hi _ _ _ _ _ hq hnew hneg =>
    rw [hj] at hi
    cases hi
    refine h.change (d := new) (D := { s.dentry new with inode := some j }) (by simp) (fun c' => Int.le_of_eq ?_) ?_
      (Nat.le_refl _) (Nat.le_refl _) (fun h0 => ?_) (h.known new)
    · rw [← excess_attach (h.known new q cdNew hq hnew) hneg c c']
      rfl
    · refine .trans (t := s.attach cdNew c) (.of_eq rfl) ((RootKept.copyUp _ j cOld).trans ?_)
      by_cases hdir : 0 = dir
      · subst hdir
        refine ⟨fun _ => ?_, ?_, ?_⟩
        · rw [Cache.updDentry_inode, Cache.updInode_inode, Function.update_self]
          exact Nat.succ_ne_zero _
        · rw [Cache.updDentry_inode, Cache.updInode_inode, Function.update_self]
        · rw [Cache.updDentry_inode, Cache.updInode_inode, Function.update_self]
      · refine .of_eq ?_
        rw [Cache.updDentry_inode, Cache.updInode_inode, Function.update_of_ne hdir]
    · -- The root is a directory, which is not linked.
      cases h0
      rw [h.isDir] at hfile
      cases hfile

theorem Rooted.keeps {e : Event} (hallows : s.allows e = true) (hr : e.Returns s t) : Rooted c₀ t := by
  cases e with
  | lookup parent a =>
    simp only [Cache.allows, Bool.and_eq_true] at hallows
    exact h.look hr hallows.2
  | create d a | mkdir d a | symlink d a | mknod d a =>
    obtain ⟨dir, cdir, p, hargs, hr⟩ := hr
    exact h.make hargs hr
  | link old new answer =>
    simp only [Cache.allows, Bool.and_eq_true] at hallows
    exact h.link hr hallows.1
  | unlink d answer keep | rmdir d answer keep => exact h.remove hr hallows
  | release d => exact h.kill hr hallows
  | setattr d answer =>
    cases hr with
    | refused e _ => exact h
    | changed i cd c c' p _ _ _ _ _ _ _ =>
      refine h.same rfl (fun k => Int.le_of_eq ?_) (.trans (t := (s.changeAttrs c').setLast c') (.of_eq rfl) (.copyUp _ i c))
        (Nat.le_refl _) (Nat.le_refl _)
      apply excess_congr
      · intro k
        rw [Cache.copyUp_client, Cache.setLast_client, Cache.changeAttrs_client, Function.update_idem, Function.update_apply]
        split
        · rename_i hk
          rw [hk]
          simp
        · rfl
      · rfl
      · exact fun _ => rfl
  | writeInode i =>
    obtain ⟨c, -, -, rfl⟩ := hr
    refine h.same rfl (fun k => Int.le_of_eq ?_) (.of_eq rfl) (Nat.le_refl _) (Nat.le_refl _)
    apply excess_congr
    · intro k
      rw [Cache.updClient_client, Function.update_apply]
      split
      · rename_i hk
        rw [hk]
      · rfl
    · rfl
    · exact fun _ => rfl

end Steps

/-! ### Runs -/

theorem mounted_rooted (c : ClientIno) (chunkId : Nat) : Rooted c (mounted c chunkId) where
  excess c' := by
    have hcount : ((mounted c chunkId).client c').count = if c' = c then 1 else 0 := rfl
    have hpos : (mounted c chunkId).positives c' = if some c == some c' then 1 else 0 :=
      (tally_succ 0 _).trans (Nat.zero_add _)
    unfold Cache.excess
    rw [hcount, hpos]
    by_cases hc : c' = c
    · simp [hc]
    · simp [hc, Ne.symm hc]
  count := Nat.one_ne_zero
  client := rfl
  isDir := rfl
  sole d hd := by
    cases d with
    | zero => rfl
    | succ d => cases hd
  inext := Nat.one_pos
  known d p cd hp hcd := by
    cases d with
    | zero =>
      cases hp
      cases hcd
      exact Nat.one_pos
    | succ d => cases hp

/-- No run ever balances the counts: from the mount on the client inode of the root is counted for its client
    dentries at most. --/
theorem never_balanced (c : ClientIno) (chunkId : Nat) (es : List Event) :
    Run.Always step (InCache fun s => ¬s.Balanced) (OfCall fun _ _ => True) (.ok (mounted c chunkId)) es := by
  refine Run.always_of_each (I := InCache (Rooted c)) (Q := fun _ _ => True) (fun x hx s hs => (hx s hs).not_balanced) ?_ ?_
    (Run.each_of_forall fun _ _ _ => trivial)
  · refine fun x e hx _ => ⟨fun _ _ _ => trivial, fun y hy t ht => ?_⟩
    subst ht
    obtain ⟨s, rfl, hallows, hret⟩ := step_ok hy
    exact (hx s rfl).keeps hallows hret
  · intro s hs
    cases hs
    exact mounted_rooted c chunkId

/-- A creation that the client refuses evicts an inode that was never started, and with it a reference on the client
    inode of the root, whose memory the new inode has. --/
theorem refused_creation_puts_root : ∃ s, Run.run step (.ok (mounted ⟨1, 12⟩ 1))
    [.lookup 0 ⟨true, true, true, true, .absent, .good .null, none⟩,
      .create 1 ⟨.good (.stale ⟨1, 12⟩), 0, .error .eio, none⟩] = some (.ok s) ∧
    (s.client ⟨1, 12⟩).count = 0 ∧ s.positives ⟨1, 12⟩ = 1 ∧ s.live ⟨1, 12⟩ = 1 :=
  ⟨_, rfl, by decide, by decide, by decide⟩

end Dcache
end Chunkfs
