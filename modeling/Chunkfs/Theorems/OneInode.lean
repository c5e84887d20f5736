import Chunkfs.Theorems.Frames

/-! How many chunkfs inodes in memory a client inode has, and how old the attributes are that they write down. -/

namespace Chunkfs
namespace Dcache
variable {s t : Cache} {d i j k cd : Nat} {c c' : ClientIno} {p : Priv}

/-! ### Inodes in memory -/

/-- A chunkfs inode in memory stands on a client inode. --/
def Cache.On (s : Cache) (i : Nat) (c : ClientIno) : Prop := (s.inode i).count ≠ 0 ∧ (s.inode i).client = .set c

/-- No two chunkfs inodes in memory stand on one client inode. --/
def Cache.OneEach (s : Cache) : Prop := ∀ i j c, s.On i c → s.On j c → i = j

/-- What `chunkfs_write_inode` writes down is not older than the last `chunkfs_setattr` of the file. --/
def WritesRecent (s : Cache) : Event → Prop
  | .writeInode i => ∀ c, s.On i c → (s.client c).last ≤ (s.inode i).attrs
  | _ => True

/-- What the events keep of inodes and their attributes. --/
structure Recent (s : Cache) : Prop where
  single : s.OneEach
  known : ∀ i c, s.On i c → i < s.inext
  recent : ∀ i c, s.On i c → (s.client c).last ≤ (s.inode i).attrs
  attrs : ∀ c, (s.client c).last ≤ (s.client c).attrs
  edition : ∀ c, (s.client c).last ≤ s.edition

namespace Recent

/-- Inodes leave memory, or come without a client inode. --/
theorem fewer (h : Recent s) (hon : ∀ i c, t.On i c → s.On i c ∧ (t.inode i).attrs = (s.inode i).attrs)
    (hinext : s.inext ≤ t.inext)
    (hclient : ∀ c, (t.client c).attrs = (s.client c).attrs ∧ (t.client c).last = (s.client c).last)
    (hedition : t.edition = s.edition) : Recent t := by
  refine ⟨fun i j c hi hj => h.single i j c (hon i c hi).1 (hon j c hj).1, ?_, ?_, ?_, ?_⟩
  · intro i c hi
    exact (h.known i c (hon i c hi).1).trans_le hinext
  · intro i c hi
    rw [(hon i c hi).2, (hclient c).2]
    exact h.recent i c (hon i c hi).1
  · intro c
    rw [(hclient c).1, (hclient c).2]
    exact h.attrs c
  · intro c
    rw [(hclient c).2, hedition]
    exact h.edition c

theorem congr (h : Recent s) (hinode : t.inode = s.inode) (hinext : t.inext = s.inext)
    (hclient : ∀ c, (t.client c).attrs = (s.client c).attrs ∧ (t.client c).last = (s.client c).last)
    (hedition : t.edition = s.edition) : Recent t := by
  refine h.fewer (fun i c hi => ?_) hinext.ge hclient hedition
  unfold Cache.On at hi
  rw [hinode] at hi ⊢
  exact ⟨hi, rfl⟩

theorem addInode (h : Recent s) (slot : Slot) : Recent (s.addInode slot) := by
  refine h.fewer ?_ (Nat.le_succ _) (fun _ => ⟨rfl, rfl⟩) rfl
  rintro i c ⟨hcount, hclient⟩
  by_cases hi : i = s.inext
  · subst hi
    simp at hclient
  · simp only [Cache.addInode_inode, Function.update_of_ne hi] at hcount hclient ⊢
    exact ⟨⟨hcount, hclient⟩, trivial⟩

theorem attach (h : Recent s) (cd : Nat) (c : ClientIno) : Recent (s.attach cd c) := by
  apply h.congr
  · rfl
  · rfl
  · exact attach_attrs s cd c
  · rfl

theorem put (h : Recent s) (i : Nat) : Recent (s.put i) := by
  refine h.fewer ?_ (by simp) (fun c => (s.put_client i c).2) (by simp)
  rintro k c ⟨hcount, hclient⟩
  by_cases hk : k = i
  · subst hk
    simp only [Cache.put_inode, Function.update_self] at hcount hclient ⊢
    exact ⟨⟨fun hz => hcount (by rw [hz]), hclient⟩, trivial⟩
  · simp only [Cache.put_inode, Function.update_of_ne hk] at hcount hclient ⊢
    exact ⟨⟨hcount, hclient⟩, trivial⟩

/-- The attributes of its client inode are copied up to an inode. --/
theorem copyUp (h : Recent s) (hc : ∀ c', (s.inode i).client = .set c' → c' = c) : Recent (s.copyUp i c) := by
  have hon : ∀ k c', (s.copyUp i c).On k c' → s.On k c' := by
    rintro k c' ⟨hcount, hclient⟩
    rw [copyUp_count] at hcount
    rw [Cache.copyUp_inode, Function.update_apply] at hclient
    split at hclient
    · rename_i hk
      exact ⟨hcount, hk ▸ hclient⟩
    · exact ⟨hcount, hclient⟩
  refine ⟨fun k k' c' hk hk' => h.single k k' c' (hon k c' hk) (hon k' c' hk'), fun k c' hk => h.known k c' (hon k c' hk),
    ?_, h.attrs, h.edition⟩
  intro k c' hk
  rw [Cache.copyUp_inode, Function.update_apply]
  split
  · rename_i hki
    subst hki
    rw [hc c' (hon k c' hk).2]
    exact h.attrs c
  · exact h.recent k c' (hon k c' hk)

/-- The attributes of a client inode change, but not by `chunkfs_setattr`. --/
theorem changeAttrs (h : Recent s) (c : ClientIno) : Recent (s.changeAttrs c) := by
  have hlast : ∀ c', ((s.changeAttrs c).client c').last = (s.client c').last := by
    intro c'
    rw [Cache.changeAttrs_client, Function.update_apply]
    split
    · rename_i hc
      rw [hc]
    · rfl
  refine ⟨h.single, h.known, ?_, ?_, ?_⟩
  · intro i c' hi
    rw [hlast]
    exact h.recent i c' hi
  · intro c'
    rw [hlast, Cache.changeAttrs_client, Function.update_apply]
    split
    · exact (h.edition c').trans (Nat.le_succ _)
    · exact h.attrs c'
  · intro c'
    rw [hlast]
    exact (h.edition c').trans (Nat.le_succ _)

/-- `chunkfs_setattr` reaches the only inode of the file. --/
theorem setattr (h : Recent s) (hi : s.On i c) : Recent (((s.changeAttrs c).setLast c).copyUp i c) := by
  have hon : ∀ k c', (((s.changeAttrs c).setLast c).copyUp i c).On k c' → s.On k c' := by
    rintro k c' ⟨hcount, hclient⟩
    rw [copyUp_count] at hcount
    rw [Cache.copyUp_inode, Function.update_apply] at hclient
    split at hclient
    · rename_i hk
      exact ⟨hcount, hk ▸ hclient⟩
    · exact ⟨hcount, hclient⟩
  have hclient : ∀ c', (((s.changeAttrs c).setLast c).copyUp i c).client c' =
      if c' = c then { s.client c with attrs := s.edition + 1, last := s.edition + 1 } else s.client c' := by
    intro c'
    by_cases hc : c' = c
    · simp [hc]
    · simp [hc]
  refine ⟨fun k k' c' hk hk' => h.single k k' c' (hon k c' hk) (hon k' c' hk'), fun k c' hk => h.known k c' (hon k c' hk),
    ?_, ?_, ?_⟩
  · intro k c' hk
    have hk' := hon k c' hk
    rw [hclient]
    split
    · rename_i hc
      subst hc
      cases h.single k i c' hk' hi
      simp
    · rename_i hc
      have hki : k ≠ i := by
        rintro rfl
        have := hk'.2.symm.trans hi.2
        cases this
        exact hc rfl
      simpa [hki] using h.recent k c' hk'
  · intro c'
    rw [hclient]
    split
    · exact Nat.le_refl _
    · exact h.attrs c'
  · intro c'
    rw [hclient]
    split
    · exact Nat.le_refl _
    · exact (h.edition c').trans (Nat.le_succ _)

/-- Attributes are written down. --/
theorem writeInode (h : Recent s) (hi : s.On i c) :
    Recent (s.updClient c fun x => { x with attrs := (s.inode i).attrs }) := by
  have hlast : ∀ c', ((s.updClient c fun x => { x with attrs := (s.inode i).attrs }).client c').last =
      (s.client c').last := by
    intro c'
    rw [Cache.updClient_client, Function.update_apply]
    split
    · rename_i hc
      rw [hc]
    · rfl
  refine ⟨h.single, h.known, ?_, ?_, ?_⟩
  · intro k c' hk
    rw [hlast]
    exact h.recent k c' hk
  · intro c'
    rw [hlast, Cache.updClient_client, Function.update_apply]
    split
    · rename_i hc
      subst hc
      exact h.recent i c' hi
    · exact h.attrs c'
  · intro c'
    rw [hlast]
    exact h.edition c'

/-- A new inode stands on a client inode that no other stands on. --/
theorem start (h : Recent s) {I : Inode} (hI : I.client = .set c) (hattrs : (s.client c).last ≤ I.attrs)
    (hc : ∀ j, ¬s.On j c) (hinode : t.inode = Function.update s.inode s.inext I) (hinext : t.inext = s.inext + 1)
    (hclient : ∀ c, (t.client c).attrs = (s.client c).attrs ∧ (t.client c).last = (s.client c).last)
    (hedition : t.edition = s.edition) : Recent t := by
  have hon : ∀ k c', t.On k c' → k = s.inext ∧ c' = c ∨ s.On k c' ∧ k ≠ s.inext := by
    rintro k c' ⟨hcount, hk⟩
    rw [hinode, Function.update_apply] at hcount hk
    split at hk
    · rename_i hki
      rw [hI] at hk
      cases hk
      exact Or.inl ⟨hki, rfl⟩
    · rename_i hki
      rw [if_neg hki] at hcount
      exact Or.inr ⟨⟨hcount, hk⟩, hki⟩
  refine ⟨?_, ?_, ?_, ?_, ?_⟩
  · intro k k' c' hk hk'
    rcases hon k c' hk with ⟨rfl, rfl⟩ | ⟨hk, -⟩ <;> rcases hon k' c' hk' with ⟨rfl, hcc⟩ | ⟨hk', -⟩
    · rfl
    · exact absurd hk' (hc k')
    · exact absurd (hcc ▸ hk) (hc k)
    · exact h.single k k' c' hk hk'
  · intro k c' hk
    rw [hinext]
    rcases hon k c' hk with ⟨rfl, -⟩ | ⟨hk, -⟩
    · exact Nat.lt_succ_self _
    · exact (h.known k c' hk).trans (Nat.lt_succ_self _)
  · intro k c' hk
    rw [hinode, (hclient c').2]
    rcases hon k c' hk with ⟨rfl, rfl⟩ | ⟨hk, hki⟩
    · rw [Function.update_self]
      exact hattrs
    · rw [Function.update_of_ne hki]
      exact h.recent k c' hk
  · intro c'
    rw [(hclient c').1, (hclient c').2]
    exact h.attrs c'
  · intro c'
    rw [(hclient c').2, hedition]
    exact h.edition c'

end Recent

/-! ### Dentries and what they stand on -/

/-- The client dentry of a dentry with an inode has the client inode that its inode stands on. --/
structure Matched (s : Cache) : Prop where
  twin : ∀ d i p cd c, (s.dentry d).inode = some i → (s.dentry d).fsdata = some p → p.clientDentry = some cd →
    (s.inode i).client = .set c → (s.clientDentry cd).inode = some c
  inode : ∀ d i, (s.dentry d).inode = some i → i < s.inext
  known : ∀ d p cd, (s.dentry d).fsdata = some p → p.clientDentry = some cd → cd < s.cdnext

theorem Matched.change (h : Matched s) {D : Dentry} (hD : t.dentry = Function.update s.dentry d D)
    (hinode : ∀ i < s.inext, (t.inode i).client = (s.inode i).client) (hinext : s.inext ≤ t.inext)
    (hcd : ∀ k < s.cdnext, ∀ c, (s.clientDentry k).inode = some c → (t.clientDentry k).inode = some c)
    (hcdnext : s.cdnext ≤ t.cdnext)
    (hDi : ∀ i p cd c, D.inode = some i → D.fsdata = some p → p.clientDentry = some cd → (t.inode i).client = .set c →
      (t.clientDentry cd).inode = some c)
    (hDlt : ∀ i, D.inode = some i → i < t.inext)
    (hDp : ∀ p cd, D.fsdata = some p → p.clientDentry = some cd → cd < t.cdnext) : Matched t := by
  refine ⟨?_, ?_, ?_⟩
  · intro k i p cd c hi hp hpcd hc
    rw [hD, Function.update_apply] at hi hp
    split at hi
    · rename_i hk
      rw [if_pos hk] at hp
      exact hDi i p cd c hi hp hpcd hc
    · rename_i hk
      rw [if_neg hk] at hp
      rw [hinode i (h.inode k i hi)] at hc
      exact hcd cd (h.known k p cd hp hpcd) c (h.twin k i p cd c hi hp hpcd hc)
  · intro k i hi
    rw [hD, Function.update_apply] at hi
    split at hi
    · exact hDlt i hi
    · exact (h.inode k i hi).trans_le hinext
  · intro k p cd hp hpcd
    rw [hD, Function.update_apply] at hp
    split at hp
    · exact hDp p cd hp hpcd
    · exact (h.known k p cd hp hpcd).trans_le hcdnext

/-- The dentry of the event has what it had, or less. --/
theorem Matched.shrink (h : Matched s) {D : Dentry} (hD : t.dentry = Function.update s.dentry d D)
    (hinode : ∀ i < s.inext, (t.inode i).client = (s.inode i).client) (hinext : s.inext ≤ t.inext)
    (hcd : ∀ k < s.cdnext, ∀ c, (s.clientDentry k).inode = some c → (t.clientDentry k).inode = some c)
    (hcdnext : s.cdnext ≤ t.cdnext) (hDi : ∀ i, D.inode = some i → (s.dentry d).inode = some i)
    (hDp : ∀ p, D.fsdata = some p → (s.dentry d).fsdata = some p) : Matched t := by
  refine h.change hD hinode hinext hcd hcdnext ?_ ?_ ?_
  · intro i p cd c hi hp hpcd hc
    have hi' := hDi i hi
    rw [hinode i (h.inode d i hi')] at hc
    exact hcd cd (h.known d p cd (hDp p hp) hpcd) c (h.twin d i p cd c hi' (hDp p hp) hpcd hc)
  · exact fun i hi => (h.inode d i (hDi i hi)).trans_le hinext
  · exact fun p cd hp hpcd => (h.known d p cd (hDp p hp) hpcd).trans_le hcdnext

theorem Matched.same (h : Matched s) (hD : t.dentry = s.dentry)
    (hinode : ∀ i < s.inext, (t.inode i).client = (s.inode i).client) (hinext : s.inext ≤ t.inext)
    (hcd : ∀ k < s.cdnext, ∀ c, (s.clientDentry k).inode = some c → (t.clientDentry k).inode = some c)
    (hcdnext : s.cdnext ≤ t.cdnext) : Matched t :=
  h.shrink (d := 0) (D := s.dentry 0) (by simp [hD]) hinode hinext hcd hcdnext (fun _ hi => hi) fun _ hp => hp

/-! ### The events -/

/-- A call that fills in an inode for a client inode that another stands on: a lookup that finds it, or a creation
    that makes it. --/
def Event.Doubles (s : Cache) : Event → Prop
  | .lookup _ a => a.Works ∧ ∃ c cd, Finds s a c cd ∧ ∃ j, s.On j c
  | .create _ a | .mkdir _ a | .symlink _ a | .mknod _ a => (∃ slot, a.inode = .good slot) ∧ a.cont = none ∧
      ∃ c, a.client = .ok c ∧ ∃ j, s.On j c
  | _ => False

theorem copyUp_ptr (s : Cache) (i : Nat) (c : ClientIno) (k : Nat) :
    ((s.copyUp i c).inode k).client = (s.inode k).client := by
  rw [Cache.copyUp_inode, Function.update_apply]
  split
  · rename_i hk
    rw [hk]
  · rfl

theorem put_ptr (s : Cache) (i k : Nat) : ((s.put i).inode k).client = (s.inode k).client := by
  rw [Cache.put_inode, Function.update_apply]
  split
  · rename_i hk
    rw [hk]
  · rfl

theorem Finds.isFound {a : Answers} (h : Finds s a c cd) : a.client.isFound = true := by
  cases h with
  | new isDir ha => rw [ha]; rfl
  | old other isDir ha _ _ => rw [ha]; rfl

/-- A lookup fills in an inode for the client inode that it finds. --/
theorem LookInodes.of_finds {a : Answers} {D : Dentry} (h : LookInodes s a D t) (hworks : a.Works) (hc : Finds s a c cd) :
    t.On s.inext c := by
  have hunique : ∀ {c' cd'}, Finds s a c' cd' → c' = c := by
    intro c' cd' hc'
    cases hc with
    | new isDir ha =>
      cases hc' with
      | new isDir' ha' => rw [ha] at ha'; cases ha'; rfl
      | old other isDir' ha' _ _ => rw [ha] at ha'; cases ha'
    | old other isDir ha _ hin =>
      cases hc' with
      | new isDir' ha' => rw [ha] at ha'; cases ha'
      | old other' isDir' ha' _ hin' =>
        rw [ha] at ha'
        cases ha'
        rw [hin] at hin'
        cases hin'
        rfl
  cases h with
  | same _ _ _ ha =>
    rcases ha with ha | ha
    · rw [hworks.1] at ha
      cases ha
    · rw [hc.isFound] at ha
      cases ha
  | leaked slot _ _ _ ha => exact absurd ha hworks.not_leaks
  | started c' cd' chunkId isDir _ _ hi _ _ hc' _ =>
    cases hunique hc'
    unfold Cache.On
    rw [hi, Function.update_self]
    exact ⟨Nat.one_ne_zero, rfl⟩

theorem Recent.look (h : Recent s) {parent : Nat} {a : Answers} (hr : LookReturns s parent a t)
    (halias : s.hasAlias a.client = true) (hgood : ¬Event.Doubles s (.lookup parent a)) : Recent t := by
  obtain ⟨D, -, -, hinodes⟩ := hr.fills halias
  cases hinodes with
  | same _ hi hn _ => exact h.congr hi hn hr.attrs.2 hr.attrs.1
  | leaked slot _ hi hn _ => exact (h.addInode slot).congr hi hn hr.attrs.2 hr.attrs.1
  | started c cd chunkId isDir _ _ hi hn ha hc _ =>
    exact h.start rfl (h.attrs c) (fun j hj => hgood ⟨ha, c, cd, hc, j, hj⟩) hi hn hr.attrs.2 hr.attrs.1

theorem Matched.look (h : Matched s) {parent : Nat} {a : Answers} (hr : LookReturns s parent a t)
    (halias : s.hasAlias a.client = true) : Matched t := by
  obtain ⟨hcdnext, hkept, -⟩ := hr.entry halias
  obtain ⟨D, hD, hentry, hinodes⟩ := hr.fills halias
  have hcd : ∀ k < s.cdnext, ∀ c, (s.clientDentry k).inode = some c → (t.clientDentry k).inode = some c := by
    intro k hk c hc
    rw [hkept k hk]
    exact hc
  have hDp : ∀ p cd, D.fsdata = some p → p.clientDentry = some cd → cd < t.cdnext := by
    intro p cd hp hpcd
    cases hentry with
    | bare hnone _ _ =>
      rw [hnone] at hp
      cases hp
    | twin cd' hp' _ hlt _ _ =>
      rw [hp'] at hp
      cases hp
      cases hpcd
      exact hlt
  have hnone : D.inode = none → ∀ i p cd c, D.inode = some i → D.fsdata = some p → p.clientDentry = some cd →
      (t.inode i).client = .set c → (t.clientDentry cd).inode = some c := by
    intro hDi i p cd c hi
    rw [hDi] at hi
    cases hi
  cases hinodes with
  | same hDi hi hn _ =>
    refine h.change hD (fun i _ => by rw [hi]) hn.ge hcd hcdnext (hnone hDi) (fun i hDi' => ?_) hDp
    rw [hDi] at hDi'
    cases hDi'
  | leaked slot hDi hi hn _ =>
    refine h.change hD (fun i hlt => by simp [hi, hlt.ne]) (hn ▸ Nat.le_succ _) hcd hcdnext (hnone hDi)
      (fun i hDi' => ?_) hDp
    rw [hDi] at hDi'
    cases hDi'
  | started c cd chunkId isDir hDi hp hi hn _ _ hc =>
    refine h.change hD (fun i hlt => by simp [hi, hlt.ne]) (hn ▸ Nat.le_succ _) hcd hcdnext ?_ (fun i hDi' => ?_) hDp
    · intro i p' cd' c' hDi' hp' hpcd' hc'
      rw [hDi] at hDi'
      cases hDi'
      rw [hp] at hp'
      cases hp'
      cases hpcd'
      rw [hi, Function.update_self] at hc'
      cases hc'
      exact hc
    · rw [hDi] at hDi'
      cases hDi'
      rw [hn]
      exact Nat.lt_succ_self _

/-- What is known before and after each call. --/
structure OneInode (s : Cache) : Prop where
  recent : Recent s
  matched : Matched s

namespace OneInode

theorem look (h : OneInode s) {parent : Nat} {a : Answers} (hr : LookReturns s parent a t)
    (halias : s.hasAlias a.client = true) (hgood : ¬Event.Doubles s (.lookup parent a)) : OneInode t :=
  ⟨h.recent.look hr halias hgood, h.matched.look hr halias⟩

/-- A client dentry that has an inode is not the one that gets one. --/
theorem attach_inode {c₁ : ClientIno} (hneg : (s.clientDentry cd).inode = none) (k : Nat) (c' : ClientIno)
    (hk : (s.clientDentry k).inode = some c') : ((s.attach cd c₁).clientDentry k).inode = some c' := by
  have hne : k ≠ cd := by
    rintro rfl
    rw [hneg] at hk
    cases hk
  simpa [hne] using hk

theorem make (h : OneInode s) {isDir : Bool} {a : MakeAnswers} {dir : Nat} {cdir : ClientIno}
    (hargs : MakeArgs s d dir cdir p) (hr : MakeReturns s d isDir a dir cdir p t)
    (hgood : ¬((∃ slot, a.inode = .good slot) ∧ a.cont = none ∧ ∃ c, a.client = .ok c ∧ ∃ j, s.On j c)) :
    OneInode t := by
  cases hr with
  | bad slot _ =>
    refine ⟨h.recent.addInode slot, h.matched.same rfl (fun i hlt => ?_) (Nat.le_succ _) (fun _ _ _ hk => hk)
      (Nat.le_refl _)⟩
    simp [hlt.ne]
  | refused slot e _ _ =>
    refine ⟨(h.recent.addInode slot).put _, h.matched.same (by simp) (fun i hlt => ?_) (by simp) (by simp) (by simp)⟩
    simp [hlt.ne]
  | unfinished slot c cd e _ _ _ hneg _ =>
    refine ⟨(((h.recent.addInode slot).attach cd c).changeAttrs c).put _,
      h.matched.same (by simp) (fun i hlt => ?_) (by simp) (fun k _ c' hk => ?_) (by simp)⟩
    · simp [hlt.ne]
    · simpa using attach_inode hneg k c' hk
  | made slot c cd chunkId hi hc hcd hneg he =>
    have hstart : Recent ((((s.addInode slot).attach cd c).changeAttrs c).start s.inext c isDir chunkId) := by
      refine ((h.recent.attach cd c).changeAttrs c).start
        (I := { count := 1, client := .set c, ino := makeUino chunkId c.ino, isDir := isDir, attrs := s.edition + 1 })
        rfl ?_ (fun j hj => ?_) (by simp) rfl (fun _ => ⟨rfl, rfl⟩) rfl
      · exact ((h.recent.attach cd c).changeAttrs c).edition c
      · exact hgood ⟨⟨slot, hi⟩, he, c, hc, j, hj⟩
    have hcopy := hstart.copyUp (i := dir) (c := cdir) ?_
    · refine ⟨hcopy.congr rfl rfl (fun _ => ⟨rfl, rfl⟩) rfl, ?_⟩
      refine h.matched.change (d := d) (D := { s.dentry d with inode := some s.inext }) (by simp) (fun i hlt => ?_)
        (by simp) (fun k _ c' hk => ?_) (by simp) ?_ (fun i hi => ?_) (h.matched.known d)
      · rw [Cache.updDentry_inode, copyUp_ptr]
        simp [hlt.ne]
      · simpa using attach_inode hneg k c' hk
      · intro i q cd' c' hi' hq hqcd hc'
        cases hi'
        rw [hargs.priv] at hq
        cases hq
        rw [hcd] at hqcd
        cases hqcd
        rw [Cache.updDentry_inode, copyUp_ptr] at hc'
        simp at hc'
        simp [hc']
      · cases hi
        simp
    · intro c' hc'
      have hne : dir ≠ s.inext := (h.matched.inode _ dir hargs.parent).ne
      simp only [Cache.start_inode, Cache.changeAttrs_inode, Cache.attach_inode, Cache.addInode_inode,
        Function.update_of_ne hne, hargs.client] at hc'
      cases hc'
      rfl

theorem link (h : OneInode s) {old new : Nat} {answer : Option Errno} (hr : LinkReturns s old new answer t) :
    OneInode t := by
  cases hr with
  | refused e _ => exact h
  | linked dir i cdOld cdNew c cOld p q _ _ hlive hi hcount hclient hp hold hc hq hnew hneg =>
    have hcc := h.matched.twin old i p cdOld cOld hi hp hold hclient
    rw [hc] at hcc
    cases hcc
    have hup : Recent ((s.attach cdNew c).copyUp i c) := by
      refine (h.recent.attach cdNew c).copyUp fun c' hc' => ?_
      rw [Cache.attach_inode, hclient] at hc'
      cases hc'
      rfl
    -- The directory, which gets the reference, is in memory already.
    have hptr : ∀ k, ((((s.attach cdNew c).copyUp i c).updInode dir fun x => { x with count := x.count + 1 }).inode
        k).client = (s.inode k).client := by
      intro k
      rw [Cache.updInode_inode, Function.update_apply]
      split
      · rename_i hk
        rw [hk]
        exact copyUp_ptr (s.attach cdNew c) i c dir
      · exact copyUp_ptr (s.attach cdNew c) i c k
    refine ⟨?_, ?_⟩
    · refine hup.fewer ?_ (Nat.le_refl _) (fun _ => ⟨rfl, rfl⟩) rfl
      rintro k c' ⟨hk, hk'⟩
      rw [Cache.updDentry_inode] at hk hk' ⊢
      rw [hptr, ← Cache.attach_inode s cdNew c, ← copyUp_ptr (s.attach cdNew c) i c] at hk'
      rw [Cache.updInode_inode, Function.update_apply] at hk ⊢
      split at hk
      · rename_i hkd
        subst hkd
        refine ⟨⟨?_, hk'⟩, by simp⟩
        rw [copyUp_count]
        exact hlive
      · rename_i hkd
        exact ⟨⟨hk, hk'⟩, by rw [if_neg hkd]⟩
    · refine h.matched.change (d := new) (D := { s.dentry new with inode := some i }) (by simp) (fun k _ => hptr k)
        (Nat.le_refl _) (fun k _ c' hk => attach_inode hneg k c' hk) (Nat.le_refl _) ?_ (fun k hk => ?_)
        (h.matched.known new)
      · intro k q' cd' c' hk hq' hqcd hc'
        cases hk
        rw [hq] at hq'
        cases hq'
        rw [hnew] at hqcd
        cases hqcd
        rw [Cache.updDentry_inode, hptr, hclient] at hc'
        cases hc'
        simp
      · cases hk
        exact h.matched.inode old i hi

theorem remove (h : OneInode s) {answer : Option Errno} {keep : Bool} (hr : RemoveReturns s d answer keep t) :
    OneInode t := by
  cases hr with
  | refused e _ => exact h
  | removed dir i cdir c p _ hcdir hi hp hc _ =>
    have hown : ∀ c', (s.inode i).client = .set c' → c' = c := by
      intro c' hc'
      rcases hc with hc | ⟨cd, hcd, hc⟩
      · rw [hc] at hc'
        cases hc'
        rfl
      · have := h.matched.twin d i p cd c' hi hp hcd hc'
        rw [hc] at this
        cases this
        rfl
    have hdir : Recent (s.copyUp dir cdir) := h.recent.copyUp fun c' hc' => by
      rw [hcdir] at hc'
      cases hc'
      rfl
    have hboth : Recent ((s.copyUp dir cdir).copyUp i c) := hdir.copyUp fun c' hc' => hown c' (by rwa [copyUp_ptr] at hc')
    cases keep with
    | true =>
      refine ⟨?_, ?_⟩
      · have hup : Recent (((s.copyUp dir cdir).copyUp i c).updDentry d fun x => { x with inode := none }) :=
          hboth.congr rfl rfl (fun _ => ⟨rfl, rfl⟩) rfl
        exact hup.put i
      · refine h.matched.shrink (d := d) (D := { s.dentry d with inode := none }) (by simp) (fun k _ => ?_) (by simp)
          (by simp) (by simp) nofun fun _ hp => hp
        simp only [↓reduceIte]
        rw [put_ptr, Cache.updDentry_inode, copyUp_ptr, copyUp_ptr]
    | false =>
      refine ⟨hboth.congr rfl rfl (fun _ => ⟨rfl, rfl⟩) rfl, ?_⟩
      refine h.matched.shrink (d := d) (D := { s.dentry d with hashed := false }) (by simp) (fun k _ => ?_)
        (Nat.le_refl _) (fun _ _ _ hk => hk) (Nat.le_refl _) (fun _ hi => hi) fun _ hp => hp
      exact (copyUp_ptr _ i c k).trans (copyUp_ptr s dir cdir k)

theorem kill (h : OneInode s) (hr : KillReturns s d t) : OneInode t := by
  obtain ⟨-, q, hq, hD⟩ := hr.dentry
  have hforget : Recent (s.forget d (s.dentry d).inode) := by
    unfold Cache.forget
    split
    · exact h.recent
    · exact (h.recent.congr (t := s.updDentry d _) rfl rfl (fun _ => ⟨rfl, rfl⟩) rfl).put _
  have hptr : ∀ k, ((s.forget d (s.dentry d).inode).inode k).client = (s.inode k).client := by
    intro k
    unfold Cache.forget
    split
    · rfl
    · rw [put_ptr]
      rfl
  have hq' : ∀ p, q = some p → (s.dentry d).fsdata = some p := by
    intro p hp
    rcases hq with rfl | rfl
    · cases hp
    · exact hp
  cases hr with
  | plain _ _ =>
    refine ⟨hforget.congr rfl rfl (fun _ => ⟨rfl, rfl⟩) rfl, ?_⟩
    exact h.matched.shrink hD (fun k _ => hptr k) (by simp) (by simp) (by simp) nofun hq'
  | priv p _ _ _ =>
    refine ⟨hforget.congr (by simp) (by simp) (fun _ => by simp) (by simp), ?_⟩
    exact h.matched.shrink hD (fun k _ => by simpa using hptr k) (by simp) (by simp) (by simp) nofun hq'

theorem keeps (h : OneInode s) {e : Event} (hallows : s.allows e = true) (hr : e.Returns s t)
    (hgood : ¬Event.Doubles s e) : OneInode t := by
  cases e with
  | lookup parent a =>
    simp only [Cache.allows, Bool.and_eq_true] at hallows
    exact h.look hr hallows.2 hgood
  | create d a | mkdir d a | symlink d a | mknod d a =>
    obtain ⟨dir, cdir, p, hargs, hr⟩ := hr
    exact h.make hargs hr hgood
  | link old new answer => exact h.link hr
  | unlink d answer keep | rmdir d answer keep => exact h.remove hr
  | release d => exact h.kill hr
  | setattr d answer =>
    cases hr with
    | refused e _ => exact h
    | changed i cd c c' p _ hi hcount hc hp hcd hc' =>
      have htwin := h.matched.twin d i p cd c hi hp hcd hc
      rw [hc'] at htwin
      cases htwin
      refine ⟨h.recent.setattr ⟨hcount, hc⟩, h.matched.same rfl (fun k _ => ?_) (Nat.le_refl _) (fun _ _ _ hk => hk)
        (Nat.le_refl _)⟩
      exact copyUp_ptr _ i c k
  | writeInode i =>
    obtain ⟨c, hcount, hc, rfl⟩ := hr
    exact ⟨h.recent.writeInode ⟨hcount, hc⟩, h.matched.same rfl (fun _ _ => rfl) (Nat.le_refl _) (fun _ _ _ hk => hk)
      (Nat.le_refl _)⟩

/-- Another inode on the same client inode. --/
theorem not_oneEach (h : OneInode s) (hj : s.On j c) (hnew : t.On s.inext c)
    (hkept : ∀ k, k ≠ s.inext → (t.inode k).count = (s.inode k).count ∧ (t.inode k).client = (s.inode k).client) :
    ¬t.OneEach := by
  intro ht
  have hne : j ≠ s.inext := (h.recent.known j c hj).ne
  have hj' : t.On j c := by
    unfold Cache.On
    rw [(hkept j hne).1, (hkept j hne).2]
    exact hj
  exact hne (ht j s.inext c hj' hnew)

theorem make_bad (h : OneInode s) {isDir : Bool} {a : MakeAnswers} {dir : Nat} {cdir : ClientIno}
    (hr : MakeReturns s d isDir a dir cdir p t)
    (hbad : (∃ slot, a.inode = .good slot) ∧ a.cont = none ∧ ∃ c, a.client = .ok c ∧ ∃ j, s.On j c) : ¬t.OneEach := by
  obtain ⟨⟨slot, hi⟩, he, c, hc, j, hj⟩ := hbad
  cases hr with
  | bad slot' hi' => rw [hi] at hi'; cases hi'
  | refused slot' e _ hc' => rw [hc] at hc'; cases hc'
  | unfinished slot' c' cd e _ _ _ _ he' => rw [he] at he'; cases he'
  | made slot' c' cd chunkId _ hc' _ _ _ =>
    rw [hc] at hc'
    cases hc'
    refine h.not_oneEach hj ⟨?_, ?_⟩ fun k hk => ⟨?_, ?_⟩
    · rw [Cache.updDentry_inode, copyUp_count, start_count]
      simp
    · rw [Cache.updDentry_inode, copyUp_ptr]
      simp
    · rw [Cache.updDentry_inode, copyUp_count, start_count]
      simp [hk]
    · rw [Cache.updDentry_inode, copyUp_ptr]
      simp [hk]

theorem not_kept (h : OneInode s) {e : Event} (hallows : s.allows e = true) (hr : e.Returns s t)
    (hbad : Event.Doubles s e) : ¬t.OneEach := by
  cases e with
  | lookup parent a =>
    simp only [Cache.allows, Bool.and_eq_true] at hallows
    obtain ⟨hworks, c, cd, hc, j, hj⟩ := hbad
    obtain ⟨D, -, -, hinodes⟩ := hr.fills hallows.2
    refine h.not_oneEach hj (hinodes.of_finds hworks hc) fun k hk => ?_
    cases hinodes with
    | same _ hi _ _ => rw [hi]; exact ⟨rfl, rfl⟩
    | leaked slot _ hi _ _ => simp [hi, hk]
    | started c' cd' chunkId isDir _ _ hi _ _ _ _ => simp [hi, hk]
  | create d a | mkdir d a | symlink d a | mknod d a =>
    obtain ⟨dir, cdir, p, -, hr⟩ := hr
    exact h.make_bad hr hbad
  | link _ _ _ | unlink _ _ _ | rmdir _ _ _ | release _ | setattr _ _ | writeInode _ => exact hbad.elim

theorem writes (h : OneInode s) (e : Event) : WritesRecent s e := by
  cases e with
  | writeInode i => exact h.recent.recent i
  | lookup _ _ | create _ _ | mkdir _ _ | symlink _ _ | mknod _ _ | link _ _ _ | unlink _ _ _ | rmdir _ _ _ | release _
  | setattr _ _ => exact trivial

end OneInode

/-! ### Runs -/

theorem mounted_on (hi : (mounted c' k).On i c) : i = 0 ∧ c = c' := by
  cases i with
  | zero =>
    cases hi.2
    exact ⟨rfl, rfl⟩
  | succ i => exact absurd rfl hi.1

theorem mounted_oneInode (c : ClientIno) (chunkId : Nat) : OneInode (mounted c chunkId) where
  recent := by
    refine ⟨?_, ?_, ?_, ?_, ?_⟩
    · intro i j c' hi hj
      rw [(mounted_on hi).1, (mounted_on hj).1]
    · intro i c' hi
      rw [(mounted_on hi).1]
      exact Nat.one_pos
    · exact fun _ _ _ => Nat.zero_le _
    · exact fun _ => Nat.zero_le _
    · exact fun _ => Nat.zero_le _
  matched := by
    refine ⟨?_, ?_, ?_⟩
    · intro d i p cd c' hi hp hcd hc
      cases d with
      | zero =>
        cases hi
        cases hp
        cases hcd
        cases hc
        rfl
      | succ d => cases hi
    · intro d i hi
      cases d with
      | zero =>
        cases hi
        exact Nat.one_pos
      | succ d => cases hi
    · intro d p cd hp hcd
      cases d with
      | zero =>
        cases hp
        cases hcd
        exact Nat.one_pos
      | succ d => cases hp

/-- The runs in which no file has two inodes in memory, and attributes older than the last `chunkfs_setattr` are
    never written down, are those in which no call fills in an inode for a client inode that another one stands
    on. --/
theorem oneInode_iff_no_double {c : ClientIno} {chunkId : Nat} {es : List Event}
    (hrun : (Run.run step (.ok (mounted c chunkId)) es).isSome) :
    Run.Always step (InCache Cache.OneEach) (OfCall WritesRecent) (.ok (mounted c chunkId)) es ↔
      Run.Each step (Avoids Event.Doubles) (.ok (mounted c chunkId)) es :=
  always_iff_avoids (fun _ h => h.recent.single) (fun _ e h _ => h.writes e) (fun _ _ _ h ha hr hg => h.keeps ha hr hg)
    (fun _ _ _ h ha hr hb => h.not_kept ha hr hb) (mounted_oneInode c chunkId) hrun

/-- A file is looked up under one name, changed, written back and forgotten. --/
theorem oneInode_one_name : Run.Always step (InCache Cache.OneEach) (OfCall WritesRecent) (.ok (mounted ⟨1, 12⟩ 1))
    [.lookup 0 ⟨true, true, true, true, .found ⟨1, 13⟩ false, .good .null, none⟩, .setattr 1 none, .writeInode 1,
      .release 1] := by
  refine (oneInode_iff_no_double (by decide)).mpr ⟨?_, fun t ht => Run.each_of_forall ?_⟩
  · rintro s t hs - ⟨-, c, cd, hc, j, hj⟩
    cases hs
    obtain ⟨-, rfl⟩ := mounted_on hj
    cases hc with
    | new isDir ha => cases ha
    | old other isDir ha _ _ => cases ha
  · simp [Avoids, Event.Doubles]

/-- Two names of one file: the second inode writes down attributes from before the `chunkfs_setattr` through the
    first name. --/
theorem second_name_writes_old :
    ¬Run.Always step (InCache Cache.OneEach) (OfCall WritesRecent) (.ok (mounted ⟨1, 12⟩ 1))
      [.lookup 0 ⟨true, true, true, true, .found ⟨1, 13⟩ false, .good .null, none⟩,
        .lookup 0 ⟨true, true, true, true, .found ⟨1, 13⟩ false, .good .null, none⟩, .setattr 1 none, .writeInode 2] := by
  intro ha
  have hwrites := ((ha.2.2 _ rfl).2.2 _ rfl |>.2.2 _ rfl).2.1 _ rfl rfl ⟨1, 13⟩ ⟨by decide, rfl⟩
  revert hwrites
  decide

end Dcache
end Chunkfs
