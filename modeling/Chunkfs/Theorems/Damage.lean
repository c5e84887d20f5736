import Chunkfs.Theorems.Locate
import Chunkfs.Theorems.NewFile

/-! Links that name a chunk outside the pool. Both walks look the chunk of a link up in the pool and assert that it is
    there; the walk by path has to find the file first. -/

namespace Chunkfs
open Exec Word

/-! ### Where an assertion can fail -/

/-- No assertion of `m` fails. --/
def NoBug {α : Type} (m : Kern α) : Prop := ∀ w u, m w ≠ .error .bug u

section NoBug
variable {α β : Type} {m : Kern α} {f : α → Kern β}

theorem NoBug.pure (a : α) : NoBug (Pure.pure a : Kern α) := fun _ _ h => nomatch h

theorem NoBug.throw {e : Stop} (he : e ≠ .bug) : NoBug (throw e : Kern α) := fun w u h => by
  cases h
  exact he rfl

theorem NoBug.bind (hm : NoBug m) (hf : ∀ a, NoBug (f a)) : NoBug (m >>= f) := fun w u h => by
  rcases bind_eq_error.mp h with h | ⟨a, t, -, h⟩
  · exact hm w u h
  · exact hf a t u h

theorem NoBug.get_bind {f : World → Kern α} (hf : ∀ w, NoBug (f w)) : NoBug (get >>= f) := fun w u h => hf w w u h

theorem NoBug.modify (f : World → World) : NoBug (modify f : Kern PUnit) := fun _ _ h => nomatch h

theorem ask_noBug : NoBug ask := fun w u h => by
  unfold ask at h
  split at h <;> cases h

theorem vnodeAt_noBug (v : Nat) : NoBug (vnodeAt v) := by
  refine .get_bind fun w => ?_
  cases w.vnode v with
  | none => exact .throw nofun
  | some vn => exact .pure vn

theorem kzallocCont_noBug : NoBug kzallocCont := by
  refine ask_noBug.bind fun r => ?_
  cases r with
  | some e => exact .pure _
  | none => exact .bind (.modify _) fun _ => .pure _

theorem getname_noBug : NoBug getname := by
  refine ask_noBug.bind fun r => ?_
  cases r with
  | some e => exact .throw nofun
  | none => exact .pure _

theorem kernPath_noBug (path : List Char) : NoBug (kernPath path) := by
  refine ask_noBug.bind fun r => ?_
  cases r with
  | some e => exact .pure _
  | none =>
    refine .get_bind fun w => ?_
    cases w.disk.path path with
    | none => exact .pure _
    | some c => exact .bind (.modify _) fun _ => .bind (.modify _) fun _ => .pure _

theorem genericGetxattr_noBug (c : ClientIno) (a : ContAttr) : NoBug (genericGetxattr c a) := by
  refine ask_noBug.bind fun r => ?_
  cases r with
  | some e => exact .pure _
  | none =>
    refine .get_bind fun w => ?_
    cases w.inode? c with
    | none => exact .pure _
    | some i =>
      dsimp only
      cases i.xattr a with
      | none => exact .pure _
      | some text =>
        dsimp only
        split <;> exact .pure _

theorem getSetContData_noBug (c : ClientIno) (a : ContAttr) : NoBug (getSetContData c a 0 0) := by
  unfold getSetContData
  rw [if_pos rfl]
  refine (genericGetxattr_noBug c a).bind fun r => ?_
  cases r <;> exact .pure _

theorem getContData_noBug (c : ClientIno) : NoBug (getContData c) := by
  refine (getSetContData_noBug c .next).bind fun r => ?_
  cases r with
  | error e => exact .pure _
  | ok next =>
    refine (getSetContData_noBug c .prev).bind fun r => ?_
    cases r with
    | error e => exact .pure _
    | ok prev =>
      refine (getSetContData_noBug c .start).bind fun r => ?_
      cases r with
      | error e => exact .pure _
      | ok start =>
        refine (getSetContData_noBug c .len).bind fun r => ?_
        cases r <;> exact .pure _

end NoBug

section Steps
variable {w w' u : World} {d : Dentry} {vn : Vnode} {c : ClientIno} {k : Continuation}

/-- Loading asserts that the chunk is in the pool. --/
theorem loadContinuation_bug {chunkId : Nat} (h : loadContinuation c chunkId w = .error .bug u) : chunkId ∉ w.pool := by
  intro hp
  unfold loadContinuation at h
  obtain ⟨b, w₁, halloc, h⟩ := (bind_eq_error.mp h).resolve_left (kzallocCont_noBug w u)
  cases b with
  | false => cases h
  | true =>
    rw [if_pos rfl, bind_ok (get_apply w₁), (kzallocCont_ok halloc).pool, findChunk_of_mem hp] at h
    obtain ⟨r, w₂, -, h⟩ := (bind_eq_error.mp h).resolve_left (getContData_noBug c w₁ u)
    cases r <;> cases h

/-- The link of a continuation names a chunk that is not in the pool. --/
def Continuation.Missing (k : Continuation) (n : Nat) (pool : List Nat) : Prop :=
  k.cd.next ≠ n ∧ k.cd.next ≠ 0 ∧ uinoToChunkId k.cd.next ∉ pool

/-- There is a file at the path of its next continuation all the same. --/
def Continuation.Named (k : Continuation) (disk : Disk) : Prop :=
  ∃ c, disk.path (contPath (uinoToChunkId k.cd.next) k.chunkId (uinoToIno k.uino)) = some c

/-- Where the walk by path fails an assertion, whatever the calls answer. --/
theorem getNextCont_bug {prev : Option Continuation} (hv : w.vnode d.inode = some vn)
    (h : getNextCont d prev w = .error .bug u) :
    (prev = none ∧ uinoToChunkId vn.ino ∉ w.pool) ∨ ∃ k, prev = some k ∧ k.Missing vn.ino w.pool ∧ k.Named w.disk := by
  unfold getNextCont at h
  obtain ⟨vn', w₁, hvn, h⟩ := (bind_eq_error.mp h).resolve_left (vnodeAt_noBug _ w u)
  obtain ⟨hv', rfl⟩ := vnodeAt_ok hvn
  rw [hv] at hv'
  cases hv'
  cases prev with
  | none =>
    obtain ⟨_, w₂, hdget, h⟩ := (bind_eq_error.mp h).resolve_left nofun
    rcases bind_eq_error.mp h with h | ⟨r, w₃, -, h⟩
    · exact Or.inl ⟨rfl, (dget_ok hdget).pool ▸ loadContinuation_bug h⟩
    · cases r <;> cases h
  | some k =>
    dsimp only at h
    split at h
    · cases h
    · rename_i hhead
      split at h
      · cases h
      · rename_i hzero
        obtain ⟨_, w₂, hname, h⟩ := (bind_eq_error.mp h).resolve_left (getname_noBug w₁ u)
        obtain ⟨r, w₃, hpath, h⟩ := (bind_eq_error.mp h).resolve_left (kernPath_noBug _ w₂ u)
        have hw₂ := getname_ok hname
        obtain ⟨hw₃, hfound⟩ := kernPath_ok hpath
        cases r with
        | error e => cases h
        | ok c =>
          obtain ⟨_, w₄, hdget, h⟩ := (bind_eq_error.mp h).resolve_left nofun
          obtain ⟨_, w₅, hdput, h⟩ := (bind_eq_error.mp h).resolve_left nofun
          have hw := ((hw₂.trans hw₃).trans (dget_ok hdget)).trans (dput_ok hdput)
          rcases bind_eq_error.mp h with h | ⟨r, w₆, -, h⟩
          · refine Or.inr ⟨k, rfl, ⟨hhead, hzero, hw.pool ▸ loadContinuation_bug h⟩, c, ?_⟩
            rw [← hw₂.disk]
            exact hfound c rfl
          · cases r <;> cases h

/-- A step along such a link that returns, returns an error. --/
theorem getNextCont_missing {r : Except Errno (Option Continuation)} (hv : w.vnode d.inode = some vn)
    (hk : k.Missing vn.ino w.pool) (h : getNextCont d (some k) w = .ok r u) : ∃ e, r = .error e := by
  cases r with
  | error e => exact ⟨e, rfl⟩
  | ok o =>
    have hnext := (getNextCont_ok h hv).2 o rfl
    cases hnext with
    | stop _ hend => exact absurd hend (not_or.mpr ⟨hk.1, hk.2.1⟩)
    | next _ c cd _ _ _ _ hp => exact absurd hp hk.2.2

theorem kernPath_reads (h : Honest w) {path : List Char} (hp : w.disk.path path = some c) : Reads (kernPath path) w (.ok c) := by
  refine (ask_reads h).bind fun w₁ h₁ => get_bind_reads ?_
  rw [h₁.disk, hp]
  have hr : Reads (modify (·.readIn c)) w₁ ⟨⟩ := .of_ok (modify_apply _ w₁) (readIn_warm c)
  exact hr.bind fun w₂ _ => (dget_reads c).bind fun w₃ _ => .pure _ w₃

theorem findChunk_of_not_mem {pool : List Nat} {x : Nat} (h : x ∉ pool) : findChunk pool x = none :=
  List.find?_eq_none.mpr fun _ hy he => h (beq_iff_eq.mp he ▸ hy)

theorem loadContinuation_missing (h : Calm w) {chunkId : Nat} (hp : chunkId ∉ w.pool) :
    ∃ u, loadContinuation c chunkId w = .error .bug u := by
  obtain ⟨w₁, hr, hw⟩ := (kzallocCont_reads h.honest).calm h
  refine ⟨w₁, ?_⟩
  unfold loadContinuation
  rw [bind_ok hr, if_pos rfl, bind_ok (get_apply w₁), hw.pool, findChunk_of_not_mem hp]
  rfl

/-- The assertion does fail where the link is named and every call works. --/
theorem getNextCont_named (h : Calm w) (hv : w.vnode d.inode = some vn) (hk : k.Missing vn.ino w.pool) (hn : k.Named w.disk) :
    ∃ u, getNextCont d (some k) w = .error .bug u := by
  obtain ⟨c, hpath⟩ := hn
  obtain ⟨w₁, hr₁, hw₁⟩ := (vnodeAt_reads hv).calm h
  obtain ⟨w₂, hr₂, hw₂⟩ := (getname_reads (h.warm hw₁).honest).calm (h.warm hw₁)
  have hw₂ := hw₁.trans hw₂
  obtain ⟨w₃, hr₃, hw₃⟩ := (kernPath_reads (h.warm hw₂).honest (hw₂.disk.symm ▸ hpath)).calm (h.warm hw₂)
  have hw₃ := hw₂.trans hw₃
  obtain ⟨w₄, hr₄, hw₄⟩ := (dget_reads (w := w₃) c).calm (h.warm hw₃)
  have hw₄ := hw₃.trans hw₄
  obtain ⟨w₅, hr₅, hw₅⟩ := (dput_reads (w := w₄) c).calm (h.warm hw₄)
  have hw₅ := hw₄.trans hw₅
  obtain ⟨u, hu⟩ := loadContinuation_missing (c := c) (h.warm hw₅) (hw₅.pool.symm ▸ hk.2.2)
  refine ⟨u, ?_⟩
  unfold getNextCont
  rw [bind_ok hr₁]
  dsimp only
  rw [if_neg hk.1, if_neg hk.2.1, bind_ok hr₂, bind_ok hr₃]
  dsimp only
  rw [bind_ok hr₄, bind_ok hr₅, bind_error hu]

/-! ### The walk by inode number -/

/-- The link of an inode in memory names a chunk that is not in the pool. --/
def World.Missing (w : World) (c : ClientIno) : Prop :=
  ∃ cd, w.contData? c = some cd ∧ cd.next ≠ 0 ∧ uinoToChunkId cd.next ∉ w.pool

theorem Still.contData? {w w' : World} (h : Still w w') (c : ClientIno) : w'.contData? c = w.contData? c := by
  unfold World.contData?
  rw [h.inode?]

theorem Still.honest (h : Still w w') (hh : Honest w) : Honest w' := fun e he => hh e (h.script.subset he)

theorem Still.calm (h : Still w w') (hc : Calm w) : Calm w' := List.suffix_nil.mp (hc ▸ h.script)

theorem igetLocked_noBug : NoBug (igetLocked c) := by
  refine ask_noBug.bind fun r => ?_
  cases r with
  | some e => exact .pure _
  | none => exact .bind (.modify _) fun _ => .pure _

theorem igetLocked_honest (h : Honest w) {r : Bool} (hr : igetLocked c w = .ok r u) : r = true := by
  unfold igetLocked at hr
  obtain ⟨o, w₁, hask, hr⟩ := bind_eq_ok.mp hr
  rw [(ask_reads h).eq_of_ok hask] at hr
  cases hr
  rfl

/-- The end of a step fails no assertion while there is memory. --/
theorem found_noBug (h : Honest w) : (do
      if ← igetLocked c then
        if (← get).icache c = .bad then return .error .eio else return .ok (some c)
      else throw .bug : Kern (Except Errno (Option ClientIno))) w ≠ .error .bug u := by
  intro hr
  obtain ⟨b, w₁, higet, hr⟩ := (bind_eq_error.mp hr).resolve_left (igetLocked_noBug w u)
  rw [igetLocked_honest h higet, if_pos rfl, bind_ok (get_apply w₁)] at hr
  split at hr <;> cases hr

theorem getNextInode_bug {v : Nat} {prev : Option ClientIno} (h : Honest w) (hr : getNextInode v prev w = .error .bug u) :
    ∃ c, prev = some c ∧ w.Missing c := by
  unfold getNextInode at hr
  cases prev with
  | none =>
    obtain ⟨vn, w₁, hvn, hfound⟩ := (bind_eq_error.mp hr).resolve_left (vnodeAt_noBug v w u)
    have hw₁ := (vnodeAt_ok hvn).2
    cases hc : vn.client with
    | none =>
      rw [hc] at hfound
      cases hfound
    | some c =>
      rw [hc, hw₁] at hfound
      exact absurd hfound (found_noBug h)
  | some c =>
    obtain ⟨r, w₁, hdata, hr⟩ := (bind_eq_error.mp hr).resolve_left (getContData_noBug c w u)
    have hs : Still w w₁ := (getContData_still c).of_ok hdata
    obtain ⟨hw, hcd⟩ := getContData_ok hdata
    cases r with
    | error e => cases hr
    | ok cd =>
      dsimp only at hr
      split at hr
      · cases hr
      · rename_i hzero
        rw [bind_ok (get_apply w₁)] at hr
        refine ⟨c, rfl, cd, (hs.contData? c).symm.trans (hcd cd rfl), hzero, fun hp => ?_⟩
        rw [hw.pool, findChunk_of_mem hp] at hr
        exact found_noBug (h.warm hw) hr

/-- The end of a step that gives an inode gives the one asked for, which is not marked bad. --/
theorem found_some {x : ClientIno} (hr : (do
      if ← igetLocked c then
        if (← get).icache c = .bad then return .error .eio else return .ok (some c)
      else throw .bug : Kern (Except Errno (Option ClientIno))) w = .ok (.ok (some x)) u) : x = c ∧ u.icache c ≠ .bad := by
  obtain ⟨b, w₁, -, hr⟩ := bind_eq_ok.mp hr
  cases b with
  | false => cases hr
  | true =>
    rw [if_pos rfl, bind_ok (get_apply w₁)] at hr
    split at hr
    · cases hr
    · rename_i hbad
      cases hr
      exact ⟨rfl, hbad⟩

/-- The inode that the walk by inode number comes to next. --/
structure NextInode (w : World) (c x : ClientIno) (cd : ContData) : Prop where
  data : w.contData? c = some cd
  nonzero : cd.next ≠ 0
  pool : uinoToChunkId cd.next ∈ w.pool
  named : x = ⟨uinoToChunkId cd.next, uinoToIno cd.next⟩
  good : w.icache x ≠ .bad

theorem getNextInode_first {v : Nat} {x : ClientIno} (hr : getNextInode v none w = .ok (.ok (some x)) u) :
    ∃ vn, w.vnode v = some vn ∧ vn.client = some x := by
  unfold getNextInode at hr
  obtain ⟨vn, w₁, hvn, hfound⟩ := bind_eq_ok.mp hr
  refine ⟨vn, (vnodeAt_ok hvn).1, ?_⟩
  cases hc : vn.client with
  | none =>
    rw [hc] at hfound
    cases hfound
  | some c =>
    rw [hc] at hfound
    rw [(found_some hfound).1]

theorem getNextInode_some {v : Nat} {x : ClientIno} (hr : getNextInode v (some c) w = .ok (.ok (some x)) u) :
    ∃ cd, NextInode w c x cd := by
  have hs : Still w u := (getNextInode_still v (some c)).of_ok hr
  unfold getNextInode at hr
  obtain ⟨r, w₁, hdata, hr⟩ := bind_eq_ok.mp hr
  have hs₁ : Still w w₁ := (getContData_still c).of_ok hdata
  cases r with
  | error e => cases hr
  | ok cd =>
    dsimp only at hr
    split at hr
    · cases hr
    · rename_i hzero
      rw [bind_ok (get_apply w₁)] at hr
      cases hf : findChunk w₁.pool (uinoToChunkId cd.next) with
      | none =>
        rw [hf] at hr
        cases hr
      | some chunk =>
        rw [hf] at hr
        obtain ⟨rfl, hp⟩ := findChunk_some hf
        obtain ⟨rfl, hbad⟩ := found_some hr
        refine ⟨cd, (hs₁.contData? c).symm.trans ((getContData_ok hdata).2 cd rfl), hzero, hs₁.pool ▸ hp, rfl, fun h => hbad ?_⟩
        rcases hs.caches ⟨uinoToChunkId cd.next, uinoToIno cd.next⟩ with hc | hc
        · exact hc.trans h
        · rw [hc] at h
          cases h

/-- Where every call works, the end of a step of the walk by inode number is decided by what is cached. --/
theorem found_returns (h : Calm w) (c : ClientIno) : ∃ u, (do
      if ← igetLocked c then
        if (← get).icache c = .bad then return .error .eio else return .ok (some c)
      else throw .bug : Kern (Except Errno (Option ClientIno))) w =
        .ok (if w.icache c = .bad then .error .eio else .ok (some c)) u := by
  obtain ⟨w₁, hask, -⟩ := (ask_reads h.honest).calm h
  have hr : ∃ u, igetLocked c w = .ok true u := ⟨_, by unfold igetLocked; rw [bind_ok hask]; rfl⟩
  obtain ⟨u, hr⟩ := hr
  have hs : Still w u := (igetLocked_still c).of_ok hr
  refine ⟨u, ?_⟩
  rw [bind_ok hr, if_pos rfl, bind_ok (get_apply u)]
  by_cases hbad : w.icache c = .bad
  · rw [if_pos (hs.bad_iff.mpr hbad), if_pos hbad]
    rfl
  · rw [if_neg (mt hs.bad_iff.mp hbad), if_neg hbad]
    rfl

theorem getNextInode_head_returns (h : Calm w) {v : Nat} (hv : w.vnode v = some vn) (hn : vn.client = some c) :
    ∃ u, getNextInode v none w = .ok (if w.icache c = .bad then .error .eio else .ok (some c)) u := by
  obtain ⟨u, hu⟩ := found_returns h c
  have hr : vnodeAt v w = .ok vn w := by
    unfold vnodeAt
    rw [bind_ok (get_apply w), hv]
    rfl
  refine ⟨u, ?_⟩
  unfold getNextInode
  dsimp only
  rw [bind_ok hr, hn]
  exact hu

/-- From an inode in memory the walk comes to the inode that `next` names. --/
theorem getNextInode_next_returns (h : Calm w) (v : Nat) {cd : ContData} (hd : w.contData? c = some cd) (hn : cd.next ≠ 0)
    (hp : uinoToChunkId cd.next ∈ w.pool) {x : ClientIno} (hx : x = ⟨uinoToChunkId cd.next, uinoToIno cd.next⟩) :
    ∃ u, getNextInode v (some c) w = .ok (if w.icache x = .bad then .error .eio else .ok (some x)) u := by
  obtain ⟨w₁, hr, hw₁⟩ := (getContData_reads h.honest hd).calm h
  have hs : Still w w₁ := (getContData_still c).of_ok hr
  obtain ⟨u, hu⟩ := found_returns (h.warm hw₁) x
  simp only [hs.bad_iff] at hu
  refine ⟨u, ?_⟩
  unfold getNextInode
  dsimp only
  rw [bind_ok hr]
  dsimp only
  rw [if_neg hn, bind_ok (get_apply w₁), hw₁.pool, findChunk_of_mem hp]
  rw [hx] at hu ⊢
  exact hu

/-- A step that can be made is made where every call works. --/
theorem NextInode.calm (h : Calm w) {x : ClientIno} {cd : ContData} (hx : NextInode w c x cd) (v : Nat) :
    ∃ u, getNextInode v (some c) w = .ok (.ok (some x)) u := by
  have hr := getNextInode_next_returns h v hx.data hx.nonzero hx.pool hx.named
  rwa [if_neg hx.good] at hr

theorem World.Missing.calm (h : Calm w) (hc : w.Missing c) (v : Nat) : ∃ u, getNextInode v (some c) w = .error .bug u := by
  obtain ⟨cd, hcd, hzero, hp⟩ := hc
  obtain ⟨w₁, hr₁, hw₁⟩ := (getContData_reads h.honest hcd).calm h
  refine ⟨w₁, ?_⟩
  unfold getNextInode
  dsimp only
  rw [bind_ok hr₁]
  dsimp only
  rw [if_neg hzero, bind_ok (get_apply w₁), hw₁.pool, findChunk_of_not_mem hp]
  rfl

end Steps

/-! ### Whole walks -/

/-- What a walk from `w` comes to: the element last taken, and the state. --/
inductive WalkedTo {κ : Type} (next : Option κ → Kern (Except Errno (Option κ))) (w : World) : Option κ → World → Prop
  | start : WalkedTo next w none w
  | step {prev : Option κ} {k : κ} {w₁ w₂ : World} (h : WalkedTo next w prev w₁) (hs : next prev w₁ = .ok (.ok (some k)) w₂) :
      WalkedTo next w (some k) w₂

/-- At every step of a walk no assertion fails, and where the link names a chunk that is not in the pool, an error is
    returned. --/
def Withstands {κ : Type} (next : Option κ → Kern (Except Errno (Option κ))) (missing : κ → World → Prop) (w : World) : Prop :=
  ∀ prev w', WalkedTo next w prev w' → (∀ u, next prev w' ≠ .error .bug u) ∧
    ∀ k, prev = some k → missing k w' → ∀ r u, next prev w' = .ok r u → ∃ e, r = .error e

/-- The continuations that lie on the way from the head, by path. --/
inductive OnPath (w : World) (d : Dentry) (n : Nat) : Option Continuation → Prop
  | start : OnPath w d n none
  | step {prev : Option Continuation} {k : Continuation} (h : OnPath w d n prev) (hs : Onward w d n prev (some k)) :
      OnPath w d n (some k)

/-- The inodes that lie on the way from the head, by number. --/
inductive OnNumbers (w : World) (head : ClientIno) : ClientIno → Prop
  | head : OnNumbers w head head
  | step {c x : ClientIno} {cd : ContData} (h : OnNumbers w head c) (hs : NextInode w c x cd) : OnNumbers w head x

section Whole
variable {w w' : World} {d : Dentry} {vn : Vnode} {prev : Option Continuation}

theorem walked_path (hv : w.vnode d.inode = some vn) (h : WalkedTo (getNextCont d) w prev w') :
    Warm w w' ∧ OnPath w d vn.ino prev := by
  induction h with
  | start => exact ⟨.refl w, .start⟩
  | step _ hs ih =>
    obtain ⟨hw, hon⟩ := ih
    obtain ⟨hw₂, hnext⟩ := getNextCont_ok hs (hw.vnode.symm ▸ hv)
    exact ⟨hw.trans hw₂, hon.step (((hnext _ rfl).onward hw₂).of_later hw.sameDisk hw.caches)⟩

theorem OnPath.walked (hc : Calm w) (hv : w.vnode d.inode = some vn) (hlive : w.icache d.client = .live)
    (h : OnPath w d vn.ino prev) : ∃ w', WalkedTo (getNextCont d) w prev w' ∧ Warm w w' := by
  induction h with
  | start => exact ⟨w, .start, .refl w⟩
  | step _ hs ih =>
    obtain ⟨w₁, hwalked, hw⟩ := ih
    obtain ⟨w₂, hr, hw₂⟩ := ((hs.warm hw).reads (hc.warm hw).honest (hw.vnode.symm ▸ hv) (hw.live hlive)).calm (hc.warm hw)
    exact ⟨w₂, hwalked.step hr, hw.trans hw₂⟩

/-- Where no link on the way names a file in a chunk that is not in the pool, the walk by path withstands the rest,
    whatever the calls answer. --/
theorem path_withstands (hv : w.vnode d.inode = some vn) (hp : uinoToChunkId vn.ino ∈ w.pool)
    (h : ∀ k, OnPath w d vn.ino (some k) → k.Missing vn.ino w.pool → ¬k.Named w.disk) :
    Withstands (getNextCont d) (fun k u => k.Missing vn.ino u.pool) w := by
  intro prev w' hwalked
  obtain ⟨hw, hon⟩ := walked_path hv hwalked
  have hv' : w'.vnode d.inode = some vn := hw.vnode.symm ▸ hv
  constructor
  · intro u hbug
    rcases getNextCont_bug hv' hbug with ⟨-, hmissing⟩ | ⟨k, rfl, hk, hn⟩
    · exact hmissing (hw.pool.symm ▸ hp)
    · exact h k hon (hw.pool ▸ hk) (hw.disk ▸ hn)
  · rintro k rfl hk r u hr
    exact getNextCont_missing hv' hk hr

theorem not_named_of_withstands (hc : Calm w) (hv : w.vnode d.inode = some vn) (hlive : w.icache d.client = .live)
    (h : Withstands (getNextCont d) (fun k u => k.Missing vn.ino u.pool) w) (k : Continuation)
    (hon : OnPath w d vn.ino (some k)) (hk : k.Missing vn.ino w.pool) : ¬k.Named w.disk := by
  intro hn
  obtain ⟨w', hwalked, hw⟩ := hon.walked hc hv hlive
  obtain ⟨u, hu⟩ := getNextCont_named (hc.warm hw) (hw.vnode.symm ▸ hv) (hw.pool.symm ▸ hk) (hw.disk.symm ▸ hn)
  exact (h _ w' hwalked).1 u hu

theorem NextInode.still_iff {c x : ClientIno} {cd : ContData} (hs : Still w w') : NextInode w' c x cd ↔ NextInode w c x cd := by
  constructor
  · intro h
    exact ⟨(hs.contData? c).symm.trans h.data, h.nonzero, hs.pool ▸ h.pool, h.named, fun hb => h.good (hs.bad_iff.mpr hb)⟩
  · intro h
    exact ⟨(hs.contData? c).trans h.data, h.nonzero, hs.pool.symm ▸ h.pool, h.named, fun hb => h.good (hs.bad_iff.mp hb)⟩

theorem World.Missing.still_iff {c : ClientIno} (hs : Still w w') : w'.Missing c ↔ w.Missing c := by
  unfold World.Missing
  rw [hs.contData? c, hs.pool]

theorem walked_numbers {v : Nat} {p : Option ClientIno} (hv : w.vnode v = some vn) (hn : vn.client = some d.client)
    (h : WalkedTo (getNextInode v) w p w') : Still w w' ∧ ∀ c, p = some c → OnNumbers w d.client c := by
  induction h with
  | start => exact ⟨Std.Refl.refl w, nofun⟩
  | @step p k w₁ w₂ _ hs ih =>
    obtain ⟨hw, hon⟩ := ih
    refine ⟨IsTrans.trans _ _ _ hw ((getNextInode_still v p).of_ok hs), fun c hc => ?_⟩
    cases hc
    cases p with
    | none =>
      obtain ⟨vn', hv', hn'⟩ := getNextInode_first hs
      rw [hw.vnode, hv] at hv'
      cases hv'
      rw [hn] at hn'
      cases hn'
      exact .head
    | some c =>
      obtain ⟨cd, hnext⟩ := getNextInode_some hs
      exact (hon c rfl).step ((NextInode.still_iff hw).mp hnext)

theorem OnNumbers.walked {v : Nat} {c : ClientIno} (hc : Calm w) (hv : w.vnode v = some vn) (hn : vn.client = some d.client)
    (hlive : w.icache d.client = .live) (h : OnNumbers w d.client c) :
    ∃ w', WalkedTo (getNextInode v) w (some c) w' ∧ Still w w' := by
  induction h with
  | head =>
    obtain ⟨w', hr⟩ := getNextInode_head_returns hc hv hn
    rw [if_neg (by rw [hlive]; nofun)] at hr
    exact ⟨w', .step .start hr, (getNextInode_still v none).of_ok hr⟩
  | @step c x cd _ hs ih =>
    obtain ⟨w₁, hwalked, hw⟩ := ih
    obtain ⟨w₂, hr⟩ := ((NextInode.still_iff hw).mpr hs).calm (hw.calm hc) v
    exact ⟨w₂, hwalked.step hr, IsTrans.trans _ _ _ hw ((getNextInode_still v (some c)).of_ok hr)⟩

/-- Where no link on the way names a chunk that is not in the pool, the walk by inode number withstands the rest, while
    there is memory. --/
theorem numbers_withstand {v : Nat} (hh : Honest w) (hv : w.vnode v = some vn) (hn : vn.client = some d.client)
    (h : ∀ c, OnNumbers w d.client c → ¬w.Missing c) : Withstands (getNextInode v) (fun c u => u.Missing c) w := by
  intro prev w' hwalked
  obtain ⟨hw, hon⟩ := walked_numbers hv hn hwalked
  constructor
  · intro u hbug
    obtain ⟨c, rfl, hc⟩ := getNextInode_bug (hw.honest hh) hbug
    exact h c (hon c rfl) ((World.Missing.still_iff hw).mp hc)
  · rintro c rfl hc
    exact absurd ((World.Missing.still_iff hw).mp hc) (h c (hon c rfl))

theorem not_missing_of_withstands {v : Nat} (hc : Calm w) (hv : w.vnode v = some vn) (hn : vn.client = some d.client)
    (hlive : w.icache d.client = .live) (h : Withstands (getNextInode v) (fun c u => u.Missing c) w) (c : ClientIno)
    (hon : OnNumbers w d.client c) : ¬w.Missing c := by
  intro hmissing
  obtain ⟨w', hwalked, hw⟩ := hon.walked hc hv hn hlive
  obtain ⟨u, hu⟩ := ((World.Missing.still_iff hw).mpr hmissing).calm (hw.calm hc) v
  exact (h _ w' hwalked).1 u hu

/-- Both walks from the head of `d`. --/
def WithstandsDamage (w : World) (d : Dentry) (n : Nat) : Prop :=
  Withstands (getNextCont d) (fun k u => k.Missing n u.pool) w ∧ Withstands (getNextInode d.inode) (fun c u => u.Missing c) w

/-- Every link on the way by number names a chunk of the pool, and every link on the way by path does or names no
    file. --/
def LinksKnown (w : World) (d : Dentry) (n : Nat) : Prop :=
  (∀ k, OnPath w d n (some k) → k.Missing n w.pool → ¬k.Named w.disk) ∧ ∀ c, OnNumbers w d.client c → ¬w.Missing c

/-- Whatever is stored at the client inodes, both walks withstand it where the links on the way are known; and where every
    call works, nowhere else. --/
theorem withstands_damage_iff (hh : Honest w) (hv : w.vnode d.inode = some vn) (hn : vn.client = some d.client)
    (hp : uinoToChunkId vn.ino ∈ w.pool) (hlive : w.icache d.client = .live) :
    (LinksKnown w d vn.ino → WithstandsDamage w d vn.ino) ∧ (Calm w → (WithstandsDamage w d vn.ino ↔ LinksKnown w d vn.ino)) := by
  have hwithstands : LinksKnown w d vn.ino → WithstandsDamage w d vn.ino := fun h =>
    ⟨path_withstands hv hp h.1, numbers_withstand hh hv hn h.2⟩
  refine ⟨hwithstands, fun hc => ⟨fun h => ?_, hwithstands⟩⟩
  exact ⟨not_named_of_withstands hc hv hlive h.1, not_missing_of_withstands hc hv hn hlive h.2⟩

end Whole

/-- The file with a link to an inode of chunk 2 that was never made. --/
def danglingLink : World :=
  { oneFile [1, 2] quietEnv with
    disk := (oneFile [1, 2] quietEnv).disk.modify firstIno fun i => i.setFirst 4 { initCd with next := makeUino 2 5 } }

theorem danglingLink_head : danglingLink.disk.contData? firstIno = some { initCd with next := makeUino 2 5 } := by
  decide +kernel

theorem danglingLink_known : LinksKnown danglingLink firstDentry firstIno.uino := by
  have hpool : uinoToChunkId (makeUino 2 5) ∈ danglingLink.pool := by decide +kernel
  have hhead : danglingLink.contData? firstIno = some { initCd with next := makeUino 2 5 } := danglingLink_head
  constructor
  · intro k hon hk
    cases hon with
    | step hprev hs =>
      cases hs with
      | head cd hcd _ =>
        cases danglingLink_head.symm.trans hcd
        exact absurd hpool hk.2.2
      | next prev c cd _ _ hpath =>
        cases hpath.symm.trans (preparedDisk_path [1, 2] quietEnv _ _ _)
  · intro c hon
    -- The inode that the link names is not in memory, so nothing is read of it.
    have hnone : danglingLink.contData? ⟨2, 5⟩ = none := rfl
    have hc : c = firstIno ∨ c = ⟨2, 5⟩ := by
      induction hon with
      | head => exact Or.inl rfl
      | @step c x cd _ hs ih =>
        rcases ih with rfl | rfl
        · cases hhead.symm.trans hs.data
          exact Or.inr (hs.named.trans (by decide +kernel))
        · cases hnone.symm.trans hs.data
    rintro ⟨cd, hcd, -, hout⟩
    rcases hc with rfl | rfl
    · cases hhead.symm.trans hcd
      exact hout hpool
    · cases hnone.symm.trans hcd

/-- A damaged link that names a chunk of the pool does no harm. --/
theorem withstands_damage_danglingLink : WithstandsDamage danglingLink firstDentry firstIno.uino := by
  have hcalm : Calm danglingLink := rfl
  have hv : danglingLink.vnode firstDentry.inode = some ⟨firstIno.uino, _, 0, some firstIno⟩ := rfl
  exact (withstands_damage_iff hcalm.honest hv rfl (by decide +kernel) rfl).1 danglingLink_known

/-- The file with a link to an inode of chunk 99. --/
def strayLink : World :=
  { oneFile [1] quietEnv with
    disk := (oneFile [1] quietEnv).disk.modify firstIno fun i => i.setFirst 4 { initCd with next := makeUino 99 5 } }

/-- The walk by inode number runs into an assertion. --/
theorem not_withstands_strayLink : Calm strayLink ∧ ¬WithstandsDamage strayLink firstDentry firstIno.uino := by
  refine ⟨rfl, fun h => ?_⟩
  have hsteps : (succeeded (getNextInode 1 none strayLink)).map (fun p => (p.1, cutShort (getNextInode 1 p.1 p.2))) =
      some (some firstIno, some .bug) := by decide +kernel
  obtain ⟨⟨c, u⟩, hr, heq⟩ := Option.map_eq_some_iff.mp hsteps
  obtain ⟨rfl, hbug⟩ := Prod.mk.inj heq
  obtain ⟨u', hr'⟩ := of_cutShort hbug
  exact (h.2 _ u (.step .start (of_succeeded hr))).1 u' hr'

end Chunkfs
