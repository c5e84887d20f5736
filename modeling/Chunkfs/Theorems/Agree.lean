import Chunkfs.Theorems.Inversion
import Chunkfs.Theorems.NewFile

/-! The walk by `chunkfs_get_next_cont` against the walk by `chunkfs_get_next_inode`, on any numbers that are stored
    as `next`, circular ones included. -/

namespace Chunkfs
open Exec
variable {w w₁ w' : World} {d : Dentry} {vn : Vnode} {prev k : Continuation} {l : List Continuation} {c : ClientIno}

/-- The client inode that a unified number names. --/
def ClientIno.ofUino (n : Nat) : ClientIno := ⟨uinoToChunkId n, uinoToIno n⟩

/-! ### What is on disk -/

/-- A continuation that the walk by `chunkfs_get_next_cont` comes to. --/
inductive Walked (w : World) (d : Dentry) (vn : Vnode) : Continuation → Prop
  | head (k : Continuation) (h : NextCont w d vn w none (some k)) : Walked w d vn k
  | next (prev k : Continuation) (hprev : Walked w d vn prev) (h : NextCont w d vn w (some prev) (some k)) :
      Walked w d vn k

/-- Wherever a link is followed, the file found by path is the client inode that the followed `next` names. --/
def Named (w : World) (d : Dentry) (vn : Vnode) : Prop :=
  ∀ prev c, Walked w d vn prev → prev.cd.next ≠ vn.ino → prev.cd.next ≠ 0 →
    w.disk.path (contPath (uinoToChunkId prev.cd.next) prev.chunkId (uinoToIno prev.uino)) = some c →
      c = .ofUino prev.cd.next

/-- The stored numbers lead from one client inode to another. --/
inductive Leads (disk : Disk) : ClientIno → ClientIno → Prop
  | here (c : ClientIno) : Leads disk c c
  | on (c c' : ClientIno) (cd : ContData) (hd : disk.contData? c = some cd) (hn : cd.next ≠ 0)
      (h : Leads disk (.ofUino cd.next) c') : Leads disk c c'

/-- No client inode to which the stored numbers lead from `c` stores the number `head`, unless that is 0. --/
def NeverBack (disk : Disk) (c : ClientIno) (head : Nat) : Prop :=
  ∀ c' cd, Leads disk c c' → disk.contData? c' = some cd → cd.next = head → cd.next = 0

/-- The walk by number ends after the inodes of the list, and `chunkfs_copy_up_inode` adds up their sizes. --/
def Sums (w : World) (d : Dentry) (l : List ClientIno) : Prop :=
  ∃ fuel, (∃ w', walkInodes fuel d.inode none w = .ok (.ok l) w') ∧
    ∃ w', totalSize fuel d.inode none 0 w = .ok (sumSizes w l 0) w'

/-! ### The walk by path -/

/-- From `prev` on the walk by path gives the list. --/
inductive Trail (w : World) (d : Dentry) (vn : Vnode) : Option Continuation → List Continuation → Prop
  | nil (prev : Option Continuation) (h : NextCont w d vn w prev none) : Trail w d vn prev []
  | cons (prev : Option Continuation) (k : Continuation) (l : List Continuation) (h : NextCont w d vn w prev (some k))
      (rest : Trail w d vn (some k) l) : Trail w d vn prev (k :: l)

/-- A continuation holds the data that is stored at its inode. --/
theorem NextCont.stored {o : Option Continuation} (h : NextCont w d vn w o (some k)) :
    w.contData? k.inode = some k.cd := by
  cases h with
  | head cd hd _ => exact hd
  | next prev c cd _ _ _ hd _ => exact hd

section Cached
variable (hlive : ∀ c, w.icache c = .live)
include hlive

theorem contData?_warm (hw : Warm w w') (c : ClientIno) : w'.contData? c = w.disk.contData? c := by
  rw [contData?_of_live (hw.live (hlive c)), hw.disk]

theorem NextCont.of_warm {o o' : Option Continuation} (hw : Warm w w₁) (hw' : Warm w₁ w')
    (h : NextCont w₁ d vn w' o o') : NextCont w d vn w o o' := by
  have hdata : ∀ c, w'.contData? c = w.contData? c := fun c =>
    (contData?_warm hlive (hw.trans hw') c).trans (contData?_warm hlive (Warm.refl w) c).symm
  cases h with
  | head cd hd hp => exact .head cd (hdata _ ▸ hd) (hw.pool ▸ hp)
  | stop prev h => exact .stop prev h
  | next prev c cd hhead hzero hpath hd hp =>
    exact .next prev c cd hhead hzero (hw.disk ▸ hpath) (hdata c ▸ hd) (hw.pool ▸ hp)

/-- A walk that has ended without error has gone along what is on disk. --/
theorem walkConts_ok (hv : w.vnode d.inode = some vn) {fuel : Nat} {o : Option Continuation}
    (h : walkConts fuel d o w₁ = .ok (.ok l) w') (hw : Warm w w₁) : Trail w d vn o l := by
  induction fuel generalizing o l w₁ w' with
  | zero => cases h
  | succ fuel ih =>
    unfold walkConts at h
    simp only [bind_eq_ok] at h
    obtain ⟨r, w₂, hnext, h⟩ := h
    obtain ⟨hw₂, hr⟩ := getNextCont_ok hnext (hw.vnode ▸ hv)
    cases r with
    | error e => cases h
    | ok o' =>
      have hn := (hr o' rfl).of_warm hlive hw hw₂
      cases o' with
      | none =>
        cases h
        exact .nil o hn
      | some k =>
        simp only [bind_eq_ok] at h
        obtain ⟨r', w₃, hrest, h⟩ := h
        cases r' with
        | error e => cases h
        | ok rest =>
          cases h
          exact .cons o k rest hn (ih hrest (hw.trans hw₂))

/-! ### The walk by number -/

/-- The walk by number takes the same step. --/
theorem NextCont.step_named (hnamed : Named w d vn) (hprev : Walked w d vn prev)
    (hd : w.contData? prev.inode = some prev.cd) (h : NextCont w d vn w (some prev) (some k)) (hh : Honest w)
    (hw : Warm w w₁) : k.inode = .ofUino prev.cd.next ∧ prev.cd.next ≠ vn.ino ∧ prev.cd.next ≠ 0 ∧
      Reads (getNextInode d.inode (some prev.inode)) w₁ (.ok (some k.inode)) := by
  cases h with
  | next _ c cd hhead hzero hpath _ hp =>
    have hc : c = .ofUino prev.cd.next := hnamed prev c hprev hhead hzero hpath
    refine ⟨hc, hhead, hzero, ?_⟩
    have hreads := getNextInode_named (v := d.inode) (hh.warm hw) (hw.contData? hd) hzero (hw.pool ▸ hp)
      (hw.live (hlive _))
    exact (congrArg (fun x => Reads (getNextInode d.inode (some prev.inode)) w₁ (.ok (some x))) hc).mpr hreads

/-- Where no stored number leads back, the walk by number goes on along the trail and ends with it. --/
theorem Trail.followsInodes (hnamed : Named w d vn) (hh : Honest w) {o : Option Continuation}
    (h : Trail w d vn o l) (ho : o = some prev) (hprev : Walked w d vn prev)
    (hd : w.contData? prev.inode = some prev.cd) (hback : NeverBack w.disk prev.inode vn.ino) :
    FollowsInodes w d.inode (some prev.inode) (l.map (·.inode)) := by
  have hdisk : ∀ {k : Continuation}, w.contData? k.inode = some k.cd → w.disk.contData? k.inode = some k.cd :=
    fun hk => (contData?_warm hlive (Warm.refl w) _).symm.trans hk
  induction h generalizing prev with
  | nil o hn =>
    subst ho
    cases hn with
    | stop _ hend =>
      have hzero : prev.cd.next = 0 := by
        rcases hend with hend | hend
        · exact hback prev.inode prev.cd (.here _) (hdisk hd) hend
        · exact hend
      exact .nil fun w₁ hw => getNextInode_end (hh.warm hw) (hw.contData? hd) hzero
  | cons o k l hn _ ih =>
    subst ho
    have hstep := fun (w₁ : World) (hw : Warm w w₁) => NextCont.step_named hlive hnamed hprev hd hn hh hw
    obtain ⟨hk, -, hzero, -⟩ := hstep w (Warm.refl w)
    refine .cons (hlive _) (fun w₁ hw => (hstep w₁ hw).2.2.2) (ih rfl (.next prev k hprev hn) hn.stored ?_)
    intro c' cd hleads
    rw [hk] at hleads
    exact hback c' cd (.on _ c' prev.cd (hdisk hd) hzero hleads)

/-- Where a stored number leads back to the head, the walk by number goes on after the trail. --/
theorem Trail.not_ends (hnamed : Named w d vn) (hcalm : Calm w) (hpool : uinoToChunkId vn.ino ∈ w.pool)
    (hino : vn.ino ≠ 0) {c' : ClientIno} {cd : ContData} (hc' : w.disk.contData? c' = some cd) (hcd : cd.next = vn.ino)
    {o : Option Continuation} (h : Trail w d vn o l) (ho : o = some prev) (hprev : Walked w d vn prev)
    (hd : w.contData? prev.inode = some prev.cd) (hleads : Leads w.disk prev.inode c') (fuel : Nat)
    (hw : Warm w w₁) : walkInodes fuel d.inode (some prev.inode) w₁ ≠ .ok (.ok (l.map (·.inode))) w' := by
  have hdisk : ∀ {k : Continuation}, w.contData? k.inode = some k.cd → w.disk.contData? k.inode = some k.cd :=
    fun hk => (contData?_warm hlive (Warm.refl w) _).symm.trans hk
  induction h generalizing prev fuel w₁ w' with
  | nil o hn =>
    subst ho
    have hnext : prev.cd.next = vn.ino := by
      cases hn with
      | stop _ hend =>
        rcases hend with hend | hend
        · exact hend
        · -- The chain ends here, so it is this element that leads back.
          cases hleads with
          | here _ =>
            rw [hdisk hd] at hc'
            cases hc'
            exact hcd
          | on _ _ cd' hd' hn' _ =>
            rw [hdisk hd] at hd'
            cases hd'
            exact absurd hend hn'
    intro hwalk
    cases fuel with
    | zero => cases hwalk
    | succ fuel =>
      have hreads := getNextInode_named (v := d.inode) (hcalm.warm hw).honest (hw.contData? hd) (hnext ▸ hino)
        (by rw [hnext, hw.pool]; exact hpool) (hw.live (hlive _))
      obtain ⟨w₂, hstep, -⟩ := hreads.calm (hcalm.warm hw)
      unfold walkInodes at hwalk
      rw [bind_ok hstep] at hwalk
      simp only [bind_eq_ok] at hwalk
      obtain ⟨r, w₃, -, hret⟩ := hwalk
      cases r with
      | error e => cases hret
      | ok rest => cases hret
  | cons o k l hn _ ih =>
    subst ho
    obtain ⟨hk, hhead, hzero, hreads⟩ := NextCont.step_named hlive hnamed hprev hd hn hcalm.honest hw
    have hleads' : Leads w.disk k.inode c' := by
      rw [hk]
      cases hleads with
      | here _ =>
        rw [hdisk hd] at hc'
        cases hc'
        exact absurd hcd hhead
      | on _ _ cd' hd' _ hrest =>
        rw [hdisk hd] at hd'
        cases hd'
        exact hrest
    intro hwalk
    cases fuel with
    | zero => cases hwalk
    | succ fuel =>
      obtain ⟨w₂, hstep, hw₂⟩ := hreads.calm (hcalm.warm hw)
      unfold walkInodes at hwalk
      rw [bind_ok hstep] at hwalk
      simp only [bind_eq_ok] at hwalk
      obtain ⟨r, w₃, hrest, hret⟩ := hwalk
      cases r with
      | error e => cases hret
      | ok rest =>
        cases hret
        exact ih rfl (.next prev k hprev hn) hn.stored hleads' fuel (hw.trans hw₂) hrest

/-- The head of a trail, and the first step of the walk by number. --/
theorem Trail.head_step (hh : Honest w) (hv : w.vnode d.inode = some vn) (hclient : vn.client = some d.client)
    (h : Trail w d vn none l) : ∃ k rest, l = k :: rest ∧ Trail w d vn (some k) rest ∧ NextCont w d vn w none (some k) ∧
      k.inode = d.client ∧ uinoToChunkId vn.ino ∈ w.pool ∧
      ∀ w₁, Warm w w₁ → Reads (getNextInode d.inode none) w₁ (.ok (some k.inode)) := by
  cases h with
  | nil _ hn => cases hn
  | cons _ k rest hn hrest =>
    cases hn with
    | head cd hd hp =>
      refine ⟨_, rest, rfl, hrest, .head cd hd hp, rfl, hp, fun w₁ hw => ?_⟩
      exact getNextInode_head (hh.warm hw) (hw.vnode ▸ hv) hclient (hw.live (hlive _))

theorem Trail.neverBack (hnamed : Named w d vn) (hcalm : Calm w) (hv : w.vnode d.inode = some vn)
    (hclient : vn.client = some d.client) (h : Trail w d vn none l) (hsums : Sums w d (l.map (·.inode))) :
    NeverBack w.disk d.client vn.ino := by
  obtain ⟨k, rest, rfl, hrest, hn, hk, hpool, hfirst⟩ := h.head_step hlive hcalm.honest hv hclient
  obtain ⟨fuel, ⟨w₁, hinodes⟩, -⟩ := hsums
  rw [← hk]
  intro c' cd hleads hd hcd
  by_contra hzero
  cases fuel with
  | zero => cases hinodes
  | succ fuel =>
    obtain ⟨w₂, hstep, hw₂⟩ := (hfirst w (Warm.refl w)).calm hcalm
    unfold walkInodes at hinodes
    rw [bind_ok hstep] at hinodes
    simp only [bind_eq_ok] at hinodes
    obtain ⟨r, w₃, hrest', hret⟩ := hinodes
    cases r with
    | error e => cases hret
    | ok rest =>
      cases hret
      exact hrest.not_ends hlive hnamed hcalm hpool (hcd ▸ hzero) hd hcd rfl (.head k hn) hn.stored hleads fuel hw₂ hrest'

theorem Trail.sums (hnamed : Named w d vn) (hcalm : Calm w) (hv : w.vnode d.inode = some vn)
    (hclient : vn.client = some d.client) (h : Trail w d vn none l) (hback : NeverBack w.disk d.client vn.ino) :
    Sums w d (l.map (·.inode)) := by
  obtain ⟨k, rest, rfl, hrest, hn, hk, -, hfirst⟩ := h.head_step hlive hcalm.honest hv hclient
  rw [← hk] at hback
  have hfollows : FollowsInodes w d.inode none ((k :: rest).map (·.inode)) :=
    .cons (hlive _) hfirst (hrest.followsInodes hlive hnamed hcalm.honest rfl (.head k hn) hn.stored hback)
  refine ⟨((k :: rest).map (·.inode)).length + 1, ?_, ?_⟩
  · obtain ⟨w₁, hr, -⟩ := (walkInodes_reads hfollows (Nat.lt_succ_self _) w (Warm.refl w)).calm hcalm
    exact ⟨w₁, hr⟩
  · obtain ⟨w₁, hr, -⟩ := (totalSize_reads hfollows _ (Nat.lt_succ_self _) 0 w (Warm.refl w)).calm hcalm
    exact ⟨w₁, hr⟩

end Cached

/-! ### Two linked inodes -/

/-- The second client inode of the file below. --/
def secondIno : ClientIno := ⟨2, 30⟩

/-- A file of two client inodes, the second of which stores `last` as its `next`. --/
def twoLinked (last : Nat) : World :=
  let i := NewObject.inode ⟨0o100644, 0, 1, [], 0, true⟩ quietEnv
  { prepared [1, 2] quietEnv with
    disk :=
      { inode := fun c =>
          if c = firstIno then some (i.setFirst 4 ⟨secondIno.uino, 0, 0, segLen⟩)
          else if c = secondIno then some (i.setFirst 4 ⟨last, firstIno.uino, segLen, segLen⟩)
          else none
        path := fun p => if p = contPath 2 1 20 then some secondIno else none
        dir := fun _ => none
        entry := fun _ _ => none }
    icache := fun _ => .live
    vnode := fun v => if v = 1 then some ⟨firstIno.uino, i.attrs, 0, some firstIno⟩ else none
    vnext := 2 }

/-- The list a walk has given. --/
def walked? : EStateM.Result Stop World (Except Errno (List Continuation)) → Option (List Continuation)
  | .ok (.ok l) _ => some l
  | _ => none

theorem walked?_eq_some {r : EStateM.Result Stop World (Except Errno (List Continuation))} (h : walked? r = some l) :
    ∃ w', r = .ok (.ok l) w' := by
  unfold walked? at h
  split at h
  · rename_i l' w'
    cases h
    exact ⟨w', rfl⟩
  · cases h

theorem walked?_length {r : EStateM.Result Stop World (Except Errno (List Continuation))} {n : Nat}
    (h : (walked? r).map List.length = some n) : ∃ cs w', cs.length = n ∧ r = .ok (.ok cs) w' := by
  obtain ⟨cs, hcs, hlen⟩ := Option.map_eq_some_iff.mp h
  obtain ⟨w', hr⟩ := walked?_eq_some hcs
  exact ⟨cs, w', hlen, hr⟩

section TwoLinked
variable {last : Nat}

theorem firstIno_inRange : firstIno.InRange := ⟨by decide, by decide, by decide⟩

theorem secondIno_inRange : secondIno.InRange := ⟨by decide, by decide, by decide⟩

theorem twoLinked_first : (twoLinked last).disk.contData? firstIno = some ⟨secondIno.uino, 0, 0, segLen⟩ := by
  have hfits : ContData.Fits ⟨secondIno.uino, 0, 0, segLen⟩ := initCd_fits.withNext secondIno_inRange.uino_lt
  simp only [Disk.contData?, twoLinked, ↓reduceIte]
  exact ClientInode.contData?_setFirst_four hfits _

theorem twoLinked_second (h : last < 2 ^ 64) :
    (twoLinked last).disk.contData? secondIno = some ⟨last, firstIno.uino, segLen, segLen⟩ := by
  have hlen : segLen < 2 ^ 64 := by decide
  have hfits : ContData.Fits ⟨last, firstIno.uino, segLen, segLen⟩ :=
    ContData.fits_mk h firstIno_inRange.uino_lt hlen hlen
  have hne : secondIno ≠ firstIno := by decide
  simp only [Disk.contData?, twoLinked, hne, ↓reduceIte]
  exact ClientInode.contData?_setFirst_four hfits _

/-- The only file found by path is the second inode, after the first. --/
theorem twoLinked_path {k f i : Nat} {c : ClientIno} (h : (twoLinked last).disk.path (contPath k f i) = some c) :
    k = 2 ∧ c = secondIno := by
  simp only [twoLinked, Option.ite_none_right_eq_some, Option.some.injEq] at h
  exact ⟨(contPath_inj h.1).1, h.2.symm⟩

theorem twoLinked_next (hlast : last < 2 ^ 64) {c : ClientIno} {cd : ContData}
    (h : (twoLinked last).disk.contData? c = some cd) : cd.next = secondIno.uino ∨ c = secondIno ∧ cd.next = last := by
  by_cases h₁ : c = firstIno
  · rw [h₁, twoLinked_first] at h
    cases h
    exact Or.inl rfl
  · by_cases h₂ : c = secondIno
    · rw [h₂, twoLinked_second hlast] at h
      cases h
      exact Or.inr ⟨h₂, rfl⟩
    · simp [Disk.contData?, twoLinked, h₁, h₂] at h

theorem twoLinked_named (hlast : last = 0 ∨ last = firstIno.uino) {vn : Vnode} (hvn : vn.ino = firstIno.uino) :
    Named (twoLinked last) firstDentry vn := by
  have hlt : last < 2 ^ 64 := by
    rcases hlast with rfl | rfl
    · decide
    · exact firstIno_inRange.uino_lt
  intro prev c hwalked hhead hzero hpath
  have hstored : (twoLinked last).contData? prev.inode = some prev.cd := by
    cases hwalked with
    | head _ h => exact h.stored
    | next _ _ _ h => exact h.stored
  rw [contData?_of_live rfl] at hstored
  rcases twoLinked_next hlt hstored with hnext | ⟨-, hnext⟩
  · rw [(twoLinked_path hpath).2, hnext]
    decide +kernel
  · rcases hlast with rfl | rfl
    · exact absurd hnext hzero
    · exact absurd (hnext.trans hvn.symm) hhead

/-- The chunkfs inode of the file. --/
def twoLinkedVnode : Vnode := ⟨firstIno.uino, (NewObject.inode ⟨0o100644, 0, 1, [], 0, true⟩ quietEnv).attrs, 0, some firstIno⟩

theorem twoLinked_vnode (last : Nat) : (twoLinked last).vnode firstDentry.inode = some twoLinkedVnode ∧
    twoLinkedVnode.ino = firstIno.uino ∧ twoLinkedVnode.client = some firstDentry.client := by
  refine ⟨?_, rfl, rfl⟩
  simp only [twoLinked, firstDentry, ↓reduceIte]
  rfl

theorem twoLinked_calm (last : Nat) : Calm (twoLinked last) := rfl

end TwoLinked

/-! ### Agreement -/

/-- When the walk by path ends without error, the walk by number ends too and goes through the same client inodes if
    and only if no stored number leads back to the head. --/
theorem walks_agree_iff (hlive : ∀ c, w.icache c = .live) (hcalm : Calm w) (hv : w.vnode d.inode = some vn)
    (hclient : vn.client = some d.client) (hnamed : Named w d vn) {fuel : Nat}
    (hwalk : walkConts fuel d none w = .ok (.ok l) w') :
    Sums w d (l.map (·.inode)) ↔ NeverBack w.disk d.client vn.ino := by
  have htrail := walkConts_ok hlive hv hwalk (Warm.refl w)
  exact ⟨htrail.neverBack hlive hnamed hcalm hv hclient, htrail.sums hlive hnamed hcalm hv hclient⟩

theorem walks_agree_twoLinked :
    ∃ l, l.length = 2 ∧ (∃ w', walkConts 5 firstDentry none (twoLinked 0) = .ok (.ok l) w') ∧
      Sums (twoLinked 0) firstDentry (l.map (·.inode)) := by
  have hl : (walked? (walkConts 5 firstDentry none (twoLinked 0))).map List.length = some 2 := by decide +kernel
  obtain ⟨l, hl, hlen⟩ := Option.map_eq_some_iff.mp hl
  obtain ⟨w', hwalk⟩ := walked?_eq_some hl
  refine ⟨l, hlen, ⟨w', hwalk⟩, ?_⟩
  refine (walks_agree_iff (fun _ => rfl) (twoLinked_calm 0) (twoLinked_vnode 0).1 (twoLinked_vnode 0).2.2
    (twoLinked_named (Or.inl rfl) (twoLinked_vnode 0).2.1) hwalk).mpr ?_
  intro c' cd _ hd hhead
  rcases twoLinked_next (by decide) hd with hnext | ⟨-, hnext⟩
  · exact absurd (hnext.symm.trans hhead) (by decide +kernel)
  · exact hnext

/-- The second inode leads back to the first: the walk by path ends there, the walk by number does not. --/
theorem walks_part_on_circle :
    Calm (twoLinked firstIno.uino) ∧ (∀ c, (twoLinked firstIno.uino).icache c = .live) ∧
      ∃ vn, (twoLinked firstIno.uino).vnode firstDentry.inode = some vn ∧ vn.client = some firstDentry.client ∧
        Named (twoLinked firstIno.uino) firstDentry vn ∧
        ∃ l, l.length = 2 ∧ (∃ w', walkConts 5 firstDentry none (twoLinked firstIno.uino) = .ok (.ok l) w') ∧
          ¬Sums (twoLinked firstIno.uino) firstDentry (l.map (·.inode)) := by
  have hl : (walked? (walkConts 5 firstDentry none (twoLinked firstIno.uino))).map List.length = some 2 := by
    decide +kernel
  obtain ⟨l, hl, hlen⟩ := Option.map_eq_some_iff.mp hl
  obtain ⟨w', hwalk⟩ := walked?_eq_some hl
  obtain ⟨hv, hino, hclient⟩ := twoLinked_vnode firstIno.uino
  have hnamed := twoLinked_named (Or.inr rfl) hino
  refine ⟨twoLinked_calm _, fun _ => rfl, _, hv, hclient, hnamed, l, hlen, ⟨w', hwalk⟩, ?_⟩
  intro hsums
  have htrail := walkConts_ok (fun _ => rfl) hv hwalk (Warm.refl _)
  have hback := htrail.neverBack (fun _ => rfl) hnamed (twoLinked_calm _) hv hclient hsums
  have hsecond := twoLinked_second firstIno_inRange.uino_lt
  have hleads : Leads (twoLinked firstIno.uino).disk firstIno secondIno := by
    refine .on _ _ _ twoLinked_first secondIno_inRange.uino_ne_zero ?_
    rw [ClientIno.ofUino, secondIno_inRange.chunkId_uino, secondIno_inRange.ino_uino]
    exact .here _
  exact firstIno_inRange.uino_ne_zero (hback secondIno _ hleads hsecond hino.symm)

end Chunkfs
