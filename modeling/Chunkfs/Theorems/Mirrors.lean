import Chunkfs.Lib.Run
import Chunkfs.Names
import Chunkfs.Theorems.Attributes
import Chunkfs.Theorems.Damage
import Chunkfs.Theorems.Directories
import Chunkfs.Theorems.Making
import Chunkfs.Theorems.Transfers

/-! Attributes of chunkfs inodes and of their client inodes, for files and directories without continuations. Whatever
    is copied up mirrors its client; a link does not copy its directory up. -/

namespace Chunkfs
open Exec Word

section Steps
variable {w w' u : World} {c : ClientIno} {v : Nat} {vn : Vnode}

theorem newInode_ok {v : Nat} (h : newInode w = .ok v w') : ∃ u, Warm w u ∧ v = u.vnext ∧ w' = u.withVnode := by
  unfold newInode at h
  obtain ⟨r, u, hask, h⟩ := bind_eq_ok.mp h
  cases r with
  | some e => cases h
  | none =>
    cases h
    exact ⟨u, ask_ok hask, rfl, rfl⟩

/-! ### Copying up an inode that has no continuations -/

/-- The client inode of a chunkfs inode in memory is the first that the walk by inode number gives. --/
theorem getNextInode_live {r : Except Errno (Option ClientIno)} (hv : w.vnode v = some vn) (hn : vn.client = some c)
    (hl : w.icache c = .live) (hr : getNextInode v none w = .ok r u) : r = .ok (some c) := by
  unfold getNextInode at hr
  obtain ⟨vn', w₁, hvn, hr⟩ := bind_eq_ok.mp hr
  obtain ⟨hv', rfl⟩ := vnodeAt_ok hvn
  rw [hv] at hv'
  cases hv'
  rw [hn] at hr
  obtain ⟨b, w₂, higet, hr⟩ := bind_eq_ok.mp hr
  have hs : Still w₁ w₂ := (igetLocked_still c).of_ok higet
  cases b with
  | false => cases hr
  | true =>
    rw [if_pos rfl, bind_ok (get_apply w₂), if_neg (by rw [hs.caches.live hl]; nofun)] at hr
    cases hr
    rfl

/-- Nothing is added to the size behind an inode that names no next one. --/
theorem totalSize_last {fuel : Nat} {total t : Int} (hlast : ∀ cd, w.contData? c = some cd → cd.next = 0)
    (hr : totalSize fuel v (some c) total w = .ok t u) : t = total := by
  cases fuel with
  | zero => cases hr
  | succ fuel =>
    obtain ⟨r, w₁, hnext, hr⟩ := bind_eq_ok.mp hr
    cases r with
    | error e =>
      cases hr
      rfl
    | ok o =>
      cases o with
      | none =>
        cases hr
        rfl
      | some x =>
        obtain ⟨cd, hcd⟩ := getNextInode_some hnext
        exact absurd (hlast cd hcd.data) hcd.nonzero

theorem totalSize_single {fuel : Nat} {t : Int} (hv : w.vnode v = some vn) (hn : vn.client = some c)
    (hl : w.icache c = .live) (hlast : ∀ cd, w.contData? c = some cd → cd.next = 0)
    (hr : totalSize fuel v none 0 w = .ok t u) : t = s64 (w.iSize c) := by
  cases fuel with
  | zero => cases hr
  | succ fuel =>
    obtain ⟨r, w₁, hnext, hr⟩ := bind_eq_ok.mp hr
    have hs : Still w w₁ := (getNextInode_still v none).of_ok hnext
    rw [getNextInode_live hv hn hl hnext] at hr
    dsimp only at hr
    rw [bind_ok (get_apply w₁)] at hr
    rw [totalSize_last (fun cd hcd => hlast cd ((hs.contData? c).symm.trans hcd)) hr, Int.zero_add]
    unfold World.iSize
    rw [hs.inode?]

end Steps

namespace Names

/-! ### What stat shows -/

/-- What `stat` shows of an inode. --/
structure Stat where
  mode : Nat
  uid : Nat
  gid : Nat
  nlink : Nat
  atime : Nat
  mtime : Nat
  ctime : Nat
  size : Int

def Stat.of (a : Attrs) (size : Int) : Stat :=
  { mode := a.mode, uid := a.uid, gid := a.gid, nlink := a.nlink, atime := a.atime, mtime := a.mtime, ctime := a.ctime,
    size := size }

/-- A chunkfs inode shows what its client inode shows. --/
def Mirrors (w : World) (v : Nat) : Prop :=
  ∃ vn c i, w.vnode v = some vn ∧ vn.client = some c ∧ w.disk.inode c = some i ∧ Stat.of vn.attrs vn.size = Stat.of i.attrs i.size

/-- An inode without a continuation, of a size that is a `loff_t`. --/
structure Alone (i : ClientInode) : Prop where
  last : ∀ cd, i.contData? = some cd → cd.next = 0
  size : i.size < 2 ^ 63

theorem Change.alone (x : Change) {i : ClientInode} (h : Alone i) : Alone (x.apply i) where
  last cd hcd := h.last cd ((ClientInode.contData?_of_xattr (x.xattr i)).symm.trans hcd)
  size := x.size i h.size

/-- Chunkfs inodes lie below the next address, and no client inode has a continuation. --/
structure Sound (w : World) : Prop where
  fresh : Fresh w
  alone : ∀ c i, w.disk.inode c = some i → Alone i

/-- The worlds of a call: what is sound stays sound, and a chunkfs inode keeps its client inode. --/
structure Follows (w w' : World) : Prop where
  sound : Sound w → Sound w'
  client : Sound w → ∀ v c, clientOf w v = some c → clientOf w' v = some c

section Follows
variable {w w' w'' : World} {v x : Nat} {c : ClientIno} {vn : Vnode} {i : ClientInode}

theorem Follows.trans (h : Follows w w') (h' : Follows w' w'') : Follows w w'' where
  sound hs := h'.sound (h.sound hs)
  client hs v c hc := h'.client (h.sound hs) v c (h.client hs v c hc)

theorem Follows.of_warm (h : Warm w w') : Follows w w' where
  sound hs := ⟨fun v hv => by rw [h.vnode]; exact hs.fresh v (h.vnext ▸ hv), fun c i hi => hs.alone c i (h.disk ▸ hi)⟩
  client _ v c hc := by
    unfold clientOf at hc ⊢
    rw [h.vnode]
    exact hc

/-- The disk changes, and its inodes stay alone. --/
theorem Follows.of_disk (hvnode : w'.vnode = w.vnode) (hvnext : w'.vnext = w.vnext)
    (halone : (∀ c i, w.disk.inode c = some i → Alone i) → ∀ c i, w'.disk.inode c = some i → Alone i) : Follows w w' where
  sound hs := ⟨fun v hv => by rw [hvnode]; exact hs.fresh v (hvnext ▸ hv), halone hs.alone⟩
  client _ v c hc := by
    unfold clientOf at hc ⊢
    rw [hvnode]
    exact hc

theorem Follows.withVnode (w : World) : Follows w w.withVnode where
  sound hs := by
    refine ⟨fun v hv => ?_, hs.alone⟩
    have hv : w.vnext + 1 ≤ v := hv
    show (if v = w.vnext then _ else _) = none
    rw [if_neg (Nat.ne_of_gt hv)]
    exact hs.fresh v (Nat.le_of_succ_le hv)
  client hs v c hc := by
    have hne : v ≠ w.vnext := fun he => by
      unfold clientOf at hc
      rw [he, hs.fresh _ (Nat.le_refl _)] at hc
      cases hc
    show (if v = w.vnext then _ else _ : Option Vnode).bind _ = _
    rw [if_neg hne]
    exact hc

theorem alone_modify {d : Disk} {f : ClientInode → ClientInode} (hf : ∀ i, Alone i → Alone (f i))
    (h : ∀ c i, d.inode c = some i → Alone i) : ∀ x i, (d.modify c f).inode x = some i → Alone i := by
  intro x i hi
  by_cases hx : x = c
  · rw [hx, Disk.inode_modify_same] at hi
    obtain ⟨j, hj, rfl⟩ := Option.map_eq_some_iff.mp hi
    exact hf j (h c j hj)
  · rw [Disk.inode_modify_of_ne hx] at hi
    exact h x i hi

/-! ### Copying up -/

/-- The chunkfs inode `v` has been copied up. --/
structure CopiesUp (w : World) (v : Nat) (w' : World) : Prop where
  disk : w'.disk = w.disk
  vnext : w'.vnext = w.vnext
  vnode : ∃ vn c i, w.vnode v = some vn ∧ vn.client = some c ∧ w.disk.inode c = some i ∧
    w'.vnode = fun x => if x = v then some { vn with attrs := i.attrs, size := i.size } else w.vnode x

theorem copyUpInode_single {r : Unit} (halone : ∀ c i, w.disk.inode c = some i → Alone i) (hc : clientOf w v = some c)
    (h : copyUpInode v c w = .ok r w') : CopiesUp w v w' := by
  obtain ⟨vn, hv, hn⟩ := Option.bind_eq_some_iff.mp hc
  obtain ⟨i, total, u, hi, htotal, rfl⟩ := copyUpInode_walks h
  have hl := live_of_inode? hi
  have hstored := disk_of_inode? hi
  have hs : Still (w.withAttrs v i.attrs) u := (totalSize_still _ v none 0).of_ok htotal
  have hsize : total = i.size := by
    have hv' : (w.withAttrs v i.attrs).vnode v = some { vn with attrs := i.attrs } := by simp [World.withAttrs, hv]
    have hsingle := totalSize_single (c := c) hv' hn hl (fun cd hcd => (halone c i hstored).last cd ?_) htotal
    · rw [hsingle, World.iSize_of_live (w := w.withAttrs v i.attrs) hl hstored]
      have hlt := (halone c i hstored).size
      exact s64_of_mem (by omega) (by omega)
    · unfold World.contData? at hcd
      rw [show (w.withAttrs v i.attrs).inode? c = some i from hi] at hcd
      exact hcd
  refine ⟨hs.disk, hs.vnext, vn, c, i, hv, hn, hstored, funext fun x => ?_⟩
  dsimp only
  rw [hs.vnode]
  by_cases hx : x = v
  · simp only [World.withAttrs, hx, ↓reduceIte, hv, Option.map_some, hsize]
  · simp only [World.withAttrs, hx, ↓reduceIte]

theorem CopiesUp.mirrors (h : CopiesUp w v w') : Mirrors w' v := by
  obtain ⟨vn, c, i, -, hn, hi, hvnode⟩ := h.vnode
  exact ⟨{ vn with attrs := i.attrs, size := i.size }, c, i, by rw [hvnode]; exact if_pos rfl, hn, by rw [h.disk]; exact hi, rfl⟩

/-- What mirrored its client before does so afterwards. --/
theorem CopiesUp.keeps (h : CopiesUp w v w') (hx : Mirrors w x) : Mirrors w' x := by
  by_cases he : x = v
  · exact he ▸ h.mirrors
  · obtain ⟨vx, c, i, hvx, hn, hi, hstat⟩ := hx
    obtain ⟨_, _, _, -, -, -, hvnode⟩ := h.vnode
    exact ⟨vx, c, i, by rw [hvnode]; exact (if_neg he).trans hvx, hn, by rw [h.disk]; exact hi, hstat⟩

theorem CopiesUp.follows (h : CopiesUp w v w') : Follows w w' := by
  obtain ⟨vn, c, i, hv, hn, hi, hvnode⟩ := h.vnode
  refine ⟨fun hs => ⟨fun x hx => ?_, fun x j hj => hs.alone x j (h.disk ▸ hj)⟩, fun hs x cx hcx => ?_⟩
  · have hnone := hs.fresh x (h.vnext ▸ hx)
    have hne : x ≠ v := fun he => by
      rw [he, hv] at hnone
      cases hnone
    rw [hvnode]
    exact (if_neg hne).trans hnone
  · unfold clientOf at hcx ⊢
    rw [hvnode]
    dsimp only
    by_cases hx : x = v
    · rw [hx, hv] at hcx
      rw [if_pos hx]
      exact hcx
    · rw [if_neg hx]
      exact hcx

end Follows

/-! ### The clients' operations -/

section Operations
variable {w w' : World} {cd c : ClientIno} {dir v : Nat} {name : List Char} {made : Made} {x : Effect}
  {entry : Option ClientIno} {old d : Dentry} {ops : ClientOps}

theorem Made.alone (made : Made) : Alone made.inode where
  last cd hcd := by
    have hnone : made.inode.contData? = none := by simp [ClientInode.contData?, ClientInode.attr?, made.xattr]
    rw [hnone] at hcd
    cases hcd
  size := made.size

/-- The world in which a client has made an object. --/
def madeWorld (u : World) (cd c : ClientIno) (name : List Char) (made : Made) : World :=
  { u with
    disk := ((u.disk.modify cd made.dir.apply).insert c made.inode).setEntry cd name (some c)
    icache := fun x => if x = c then .live else u.icache x }

theorem clientMake_ok (h : clientMake cd name made w = .ok (.ok c) w') : ∃ u, Warm w u ∧ w' = madeWorld u cd c name made := by
  unfold clientMake at h
  obtain ⟨r, u, hask, h⟩ := bind_eq_ok.mp h
  cases r with
  | some e => cases h
  | none =>
    dsimp only at h
    rw [bind_ok (get_apply u)] at h
    split at h
    · cases h
    · split at h
      · cases h
      · cases h
        exact ⟨u, ask_ok hask, rfl⟩

theorem madeWorld_follows (u : World) (cd c : ClientIno) (name : List Char) (made : Made) :
    Follows u (madeWorld u cd c name made) := by
  refine .of_disk rfl rfl fun halone x i hi => ?_
  change (if x = c then some made.inode else (u.disk.modify cd made.dir.apply).inode x) = some i at hi
  split at hi
  · cases hi
    exact made.alone
  · exact alone_modify (fun _ => made.dir.alone) halone x i hi

/-- The world in which a client has acted on a directory and an object. --/
def actedWorld (u : World) (cd c : ClientIno) (name : List Char) (x : Effect) (entry : Option ClientIno) : World :=
  { u with disk := ((u.disk.modify cd x.dir.apply).modify c x.inode.apply).setEntry cd name entry }

theorem clientAct_ok (h : clientAct cd name c x entry w = .ok (.ok ()) w') :
    ∃ u, Warm w u ∧ w' = actedWorld u cd c name x entry := by
  unfold clientAct at h
  obtain ⟨r, u, hask, h⟩ := bind_eq_ok.mp h
  cases r with
  | some e => cases h
  | none =>
    cases h
    exact ⟨u, ask_ok hask, rfl⟩

theorem actedWorld_follows (u : World) (cd c : ClientIno) (name : List Char) (x : Effect) (entry : Option ClientIno) :
    Follows u (actedWorld u cd c name x entry) :=
  .of_disk rfl rfl fun halone => alone_modify (fun _ => x.inode.alone) (alone_modify (fun _ => x.dir.alone) halone)

theorem clientOf_eq_some {vn : Vnode} (hv : w.vnode v = some vn) (hn : vn.client = some c) : clientOf w v = some c := by
  unfold clientOf
  rw [hv]
  exact hn

/-! ### The operations of chunkfs -/

/-- Initial data leaves an inode alone. --/
theorem stored_follows (w : World) (c : ClientIno) : Follows w (w.stored c initCd 4) := by
  refine .of_disk rfl rfl fun halone => alone_modify (fun i hi => ⟨fun cd hcd => ?_, ?_⟩) halone
  · rw [ClientInode.contData?_setFirst_four initCd_fits] at hcd
    cases hcd
    rfl
  · rw [ClientInode.size_setFirst]
    exact hi.size

/-- A new chunkfs inode takes its client inode. --/
theorem setVnode_follows {vn : Vnode} (hv : w.vnode v = some vn) (hn : vn.client = none) (vn' : Vnode) :
    Follows w (w.setVnode v vn') where
  sound hs := by
    refine ⟨fun x hx => ?_, hs.alone⟩
    have hnone := hs.fresh x hx
    have hne : x ≠ v := fun he => by
      rw [he, hv] at hnone
      cases hnone
    exact (if_neg hne).trans hnone
  client hs x cx hcx := by
    have hne : x ≠ v := fun he => by
      unfold clientOf at hcx
      rw [he, hv] at hcx
      exact absurd (hn.symm.trans hcx) nofun
    unfold clientOf at hcx ⊢
    rw [← hcx]
    exact congrArg (Option.bind · _) (if_neg hne)

theorem make_ok {nd : Bool} (hs : Sound w) (h : make dir name made nd w = .ok (.ok d) w') :
    Follows w w' ∧ clientOf w' d.inode = some d.client ∧ Mirrors w' d.inode ∧ Mirrors w' dir := by
  unfold make at h
  obtain ⟨vn, w₁, hvn, hr⟩ := bind_eq_ok.mp h
  obtain ⟨hdir, hw₁⟩ := vnodeAt_ok hvn
  rw [hw₁] at hr
  cases hn : vn.client with
  | none =>
    rw [hn] at hr
    cases hr
  | some cd =>
    rw [hn] at hr
    obtain ⟨v, w₂, hnew, hr⟩ := bind_eq_ok.mp hr
    obtain ⟨u, hu, rfl, rfl⟩ := newInode_ok hnew
    obtain ⟨_, w₂, hnd, hr⟩ := bind_eq_ok.mp hr
    obtain rfl := copyDownNd_ok hnd
    have f₂ := (Follows.of_warm hu).trans (.withVnode u)
    obtain ⟨r, w₃, hmake, hr⟩ := bind_eq_ok.mp hr
    cases r with
    | error e =>
      obtain ⟨_, _, -, hrest⟩ := bind_eq_ok.mp hr
      cases hrest
    | ok c =>
      obtain ⟨t, ht, rfl⟩ := clientMake_ok hmake
      have f₃ := (f₂.trans (.of_warm ht)).trans (madeWorld_follows t cd c name made)
      obtain ⟨r, w₄, hinit, hr⟩ := bind_eq_ok.mp hr
      cases r with
      | error e =>
        obtain ⟨_, _, -, hrest⟩ := bind_eq_ok.mp hr
        cases hrest
      | ok _ =>
        have hw₄ := (setContData_stored hinit).2
        have f₄ := (f₃.trans (stored_follows _ c)).trans (.of_warm hw₄)
        have hv₄ : w₄.vnode u.vnext = some ⟨0, zeroAttrs, 0, none⟩ := by
          rw [hw₄.vnode]
          show t.vnode u.vnext = _
          rw [ht.vnode]
          exact if_pos rfl
        obtain ⟨_, w₅, hstart, hr⟩ := bind_eq_ok.mp hr
        rw [startInode_eq hv₄] at hstart
        have f₄' := f₄.trans (setVnode_follows hv₄ rfl ⟨makeUino (uinoToChunkId vn.ino) c.ino, zeroAttrs, 0, some c⟩)
        have c₅ := copyUpInode_single (f₄'.sound hs).alone (clientOf_eq_some (World.setVnode_vnode_same ..) rfl) hstart
        have f₅ := f₄'.trans c₅.follows
        obtain ⟨_, w₆, hcopy, hr⟩ := bind_eq_ok.mp hr
        have c₆ := copyUpInode_single (f₅.sound hs).alone (f₅.client hs _ _ (clientOf_eq_some hdir hn)) hcopy
        cases hr
        refine ⟨f₅.trans c₆.follows, ?_, c₆.keeps c₅.mirrors, c₆.mirrors⟩
        refine c₆.follows.client (f₅.sound hs) _ _ (c₅.follows.client (f₄'.sound hs) _ _ ?_)
        exact clientOf_eq_some (World.setVnode_vnode_same ..) rfl

/-- What the two operations that remove a name do once the inodes are known. --/
theorem removes_ok (hs : Sound w) (hdir : clientOf w dir = some cd) (hc : clientOf w v = some c)
    (h : (do
      match ← clientAct cd name c x none with
      | .error e => return .error e
      | .ok _ =>
        copyUpInode dir cd
        copyUpInode v c
        return .ok () : Kern (Except Errno Unit)) w = .ok (.ok ()) w') : Follows w w' ∧ Mirrors w' v ∧ Mirrors w' dir := by
  obtain ⟨r, w₁, hact, hr⟩ := bind_eq_ok.mp h
  cases r with
  | error e => cases hr
  | ok _ =>
    obtain ⟨u, hu, rfl⟩ := clientAct_ok hact
    obtain ⟨_, w₂, hcopy, hr⟩ := bind_eq_ok.mp hr
    obtain ⟨_, w₃, hcopy', hr⟩ := bind_eq_ok.mp hr
    cases hr
    have f₁ := (Follows.of_warm hu).trans (actedWorld_follows u cd c name x none)
    have c₂ := copyUpInode_single (f₁.sound hs).alone (f₁.client hs _ _ hdir) hcopy
    have f₂ := f₁.trans c₂.follows
    have c₃ := copyUpInode_single (f₂.sound hs).alone (f₂.client hs _ _ hc) hcopy'
    exact ⟨f₂.trans c₃.follows, c₃.mirrors, c₃.keeps c₂.mirrors⟩

theorem unlink_ok (hs : Sound w) (hd : clientOf w d.inode = some d.client) (h : unlink ops dir name d w = .ok (.ok ()) w') :
    Follows w w' ∧ Mirrors w' d.inode ∧ Mirrors w' dir := by
  unfold unlink at h
  obtain ⟨vn, w₁, hvn, hr⟩ := bind_eq_ok.mp h
  obtain ⟨hdir, hw₁⟩ := vnodeAt_ok hvn
  rw [hw₁] at hr
  obtain ⟨vn', w₂, hvn', hr⟩ := bind_eq_ok.mp hr
  obtain ⟨hv, hw₂⟩ := vnodeAt_ok hvn'
  rw [hw₂] at hr
  have hn' : vn'.client = some d.client := by
    unfold clientOf at hd
    rw [hv] at hd
    exact hd
  cases hn : vn.client with
  | none =>
    rw [hn] at hr
    cases hr
  | some cd =>
    rw [hn, hn'] at hr
    exact removes_ok hs (clientOf_eq_some hdir hn) hd hr

theorem rmdir_ok (hs : Sound w) (hd : clientOf w d.inode = some d.client) (h : rmdir ops dir name d w = .ok (.ok ()) w') :
    Follows w w' ∧ Mirrors w' d.inode ∧ Mirrors w' dir := by
  unfold rmdir at h
  obtain ⟨vn, w₁, hvn, hr⟩ := bind_eq_ok.mp h
  obtain ⟨hdir, hw₁⟩ := vnodeAt_ok hvn
  rw [hw₁] at hr
  cases hn : vn.client with
  | none =>
    rw [hn] at hr
    cases hr
  | some cd =>
    rw [hn] at hr
    exact removes_ok hs (clientOf_eq_some hdir hn) hd hr

theorem link_ok (hs : Sound w) (hold : clientOf w old.inode = some old.client) (h : link ops old dir name w = .ok (.ok d) w') :
    d = old ∧ ∃ cd u, clientOf w dir = some cd ∧ Warm w u ∧
      CopiesUp (actedWorld u cd old.client name ops.link (some old.client)) old.inode w' := by
  unfold link at h
  obtain ⟨vn, w₁, hvn, hr⟩ := bind_eq_ok.mp h
  obtain ⟨hdir, hw₁⟩ := vnodeAt_ok hvn
  rw [hw₁] at hr
  obtain ⟨vn', w₂, hvn', hr⟩ := bind_eq_ok.mp hr
  obtain ⟨hv, hw₂⟩ := vnodeAt_ok hvn'
  rw [hw₂] at hr
  have hn' : vn'.client = some old.client := by
    unfold clientOf at hold
    rw [hv] at hold
    exact hold
  cases hn : vn.client with
  | none =>
    rw [hn] at hr
    cases hr
  | some cd =>
    rw [hn, hn'] at hr
    obtain ⟨r, w₃, hact, hr⟩ := bind_eq_ok.mp hr
    cases r with
    | error e => cases hr
    | ok _ =>
      obtain ⟨u, hu, rfl⟩ := clientAct_ok hact
      obtain ⟨_, w₄, hcopy, hr⟩ := bind_eq_ok.mp hr
      cases hr
      have f := (Follows.of_warm hu).trans (actedWorld_follows u cd old.client name ops.link (some old.client))
      exact ⟨rfl, cd, u, clientOf_eq_some hdir hn, hu, copyUpInode_single (f.sound hs).alone (f.client hs _ _ hold) hcopy⟩

/-- `stat` on the directory does not show what a client has made of it. --/
def Unseen (w : World) (dir : Nat) (x : Change) : Prop :=
  ∀ c i, clientOf w dir = some c → w.disk.inode c = some i →
    Stat.of (x.apply i).attrs (x.apply i).size = Stat.of i.attrs i.size

/-- After a link the directory mirrors its client if and only if the client has not changed it. --/
theorem link_dir (hs : Sound w) (hold : clientOf w old.inode = some old.client) (hne : clientOf w dir ≠ some old.client)
    (h : link ops old dir name w = .ok (.ok d) w') (hm : Mirrors w dir) : Mirrors w' dir ↔ Unseen w dir ops.link.dir := by
  obtain ⟨-, cd, u, hcd, hu, hcopy⟩ := link_ok hs hold h
  obtain ⟨vn, c, i, hv, hn, hi, hstat⟩ := hm
  have hc : clientOf w dir = some c := clientOf_eq_some hv hn
  cases hcd.symm.trans hc
  have hcne : cd ≠ old.client := fun he => hne (he ▸ hc)
  have hdir : dir ≠ old.inode := fun he => hne (he ▸ hold)
  have hv' : w'.vnode dir = some vn := by
    obtain ⟨_, _, _, -, -, -, hvnode⟩ := hcopy.vnode
    rw [hvnode]
    exact (if_neg hdir).trans (hu.vnode ▸ hv)
  have hi' : w'.disk.inode cd = some (ops.link.dir.apply i) := by
    rw [hcopy.disk]
    show ((u.disk.modify cd _).modify old.client _).inode cd = _
    rw [Disk.inode_modify_of_ne hcne, Disk.inode_modify_same, hu.disk, hi]
    rfl
  constructor
  · rintro ⟨vn', c', i', hvn', hn', hi'', hstat'⟩ c'' j hc'' hj
    cases hv'.symm.trans hvn'
    cases hn.symm.trans hn'
    cases hi'.symm.trans hi''
    cases hc.symm.trans hc''
    cases hi.symm.trans hj
    exact hstat'.symm.trans hstat
  · intro hunseen
    exact ⟨vn, cd, _, hv', hn, hi', hstat.trans (hunseen cd i hc hi).symm⟩

end Operations

/-! ### Runs -/

/-- Every dentry stands for a chunkfs inode on the inode of its client dentry. --/
structure Tree.Sound (s : Tree) : Prop where
  world : Names.Sound s.world
  dentries : ∀ dir name d, s.dentry dir name = some d → clientOf s.world d.inode = some d.client

def Call.dir : Call → Nat
  | .make _ dir _ => dir
  | .link _ _ dir _ => dir
  | .unlink dir _ => dir
  | .rmdir dir _ => dir

/-- The object that a call links or removes. --/
def Call.target (s : Tree) : Call → Option Dentry
  | .make _ _ _ => none
  | .link oldDir oldName _ _ => s.dentry oldDir oldName
  | .unlink dir name => s.dentry dir name
  | .rmdir dir name => s.dentry dir name

/-- The object that a call from `s` to `t` has made, linked or removed. --/
def Call.object (s t : Tree) : Call → Option Dentry
  | .make _ dir name => t.dentry dir name
  | .link _ _ dir name => t.dentry dir name
  | .unlink dir name => s.dentry dir name
  | .rmdir dir name => s.dentry dir name

/-- The parent directory and the object of a call, as far as there is one, mirror their clients. --/
structure Held (s : Tree) (call : Call) : Prop where
  dir : Mirrors s.world call.dir
  target : ∀ d, call.target s = some d → Mirrors s.world d.inode

/-- The parent directory and the object of a call mirror their clients after it, if they did so before. --/
def Reflects (s : Tree) (e : Event) : Prop :=
  ∀ t, s.step e = some t → Held s e.call →
    Mirrors t.world e.call.dir ∧ ∀ d, e.call.object s t = some d → Mirrors t.world d.inode

/-- What the client's `link` makes of the directory cannot be seen; nothing is asked of other calls. --/
def LinkUnseen (s : Tree) (e : Event) : Prop :=
  match e.call with
  | .link _ _ dir _ => Unseen s.world dir e.ops.link.dir
  | _ => True

section Runs
variable {s t : Tree} {e : Event} {w : World} {dir : Nat} {name : List Char}

theorem Tree.after_eq_some {α : Type} {entry : α → Option Dentry} {r : EStateM.Result Stop World (Except Errno α)}
    (h : s.after dir name entry r = some t) :
    ∃ a w, r = .ok (.ok a) w ∧ t = ⟨w, fun v n => if v = dir ∧ n = name then entry a else s.dentry v n⟩ := by
  unfold after at h
  split at h
  · rename_i a w
    cases h
    exact ⟨a, w, rfl, rfl⟩
  · cases h

theorem Tree.Sound.after (hs : s.Sound) (hf : Follows s.world w) {entry : Option Dentry}
    (hentry : ∀ d, entry = some d → clientOf w d.inode = some d.client) :
    Tree.Sound ⟨w, fun v n => if v = dir ∧ n = name then entry else s.dentry v n⟩ where
  world := hf.sound hs.world
  dentries v n d hd := by
    dsimp only at hd
    split at hd
    · exact hentry d hd
    · exact hf.client hs.world _ _ (hs.dentries v n d hd)

/-- What every call does: it keeps the tree sound, the object mirrors its client afterwards, and so does the directory
    if and only if the client's link has left it as it was. --/
structure Done (s t : Tree) (e : Event) : Prop where
  sound : t.Sound
  object : ∀ d, e.call.object s t = some d → Mirrors t.world d.inode
  dir : Mirrors s.world e.call.dir → (Mirrors t.world e.call.dir ↔ LinkUnseen s e)

theorem step_done (hs : s.Sound) (h : s.step e = some t) : Done s t e := by
  obtain ⟨env, ops, call⟩ := e
  -- The environment of a call is no part of what is sound.
  have hw : Sound { s.world with env := env } := ⟨hs.world.fresh, hs.world.alone⟩
  have hf {w : World} (f : Follows { s.world with env := env } w) : Follows s.world w :=
    ⟨fun _ => f.sound hw, fun _ => f.client hw⟩
  unfold Tree.step at h
  cases call with
  | make x dir name =>
    dsimp only at h
    split at h
    · cases h
    · obtain ⟨d, w, hr, rfl⟩ := Tree.after_eq_some h
      obtain ⟨made, nd, hmade⟩ : ∃ made nd,
          makes ops dir name x { s.world with env := env } = make dir name made nd _ := by
        cases x <;> exact ⟨_, _, rfl⟩
      rw [hmade] at hr
      obtain ⟨f, hd, hm, hdir⟩ := make_ok hw hr
      refine ⟨hs.after (hf f) (fun d' hd' => ?_), fun d' hd' => ?_, fun _ => ⟨fun _ => trivial, fun _ => hdir⟩⟩
      · cases hd'
        exact hd
      · dsimp only [Call.object] at hd'
        rw [if_pos ⟨rfl, rfl⟩] at hd'
        cases hd'
        exact hm
  | link oldDir oldName dir name =>
    dsimp only at h
    split at h
    · rename_i old hold _
      split at h
      · cases h
      · rename_i hne
        obtain ⟨d, w, hr, rfl⟩ := Tree.after_eq_some h
        have hlinked := hs.dentries _ _ _ hold
        obtain ⟨rfl, cd, u, hcd, hu, hcopy⟩ := link_ok hw hlinked hr
        have f := ((Follows.of_warm hu).trans (actedWorld_follows u cd d.client name ops.link (some d.client))).trans hcopy.follows
        refine ⟨hs.after (hf f) (fun d' hd' => ?_), fun d' hd' => ?_,
          fun hm => link_dir (w := { s.world with env := env }) hw hlinked hne hr hm⟩
        · cases hd'
          exact f.client hw _ _ hlinked
        · dsimp only [Call.object] at hd'
          rw [if_pos ⟨rfl, rfl⟩] at hd'
          cases hd'
          exact hcopy.mirrors
    · cases h
  | unlink dir name =>
    dsimp only at h
    split at h
    · cases h
    · rename_i d hd
      obtain ⟨_, w, hr, rfl⟩ := Tree.after_eq_some h
      obtain ⟨f, hm, hdir⟩ := unlink_ok hw (hs.dentries _ _ _ hd) hr
      refine ⟨hs.after (hf f) nofun, fun d' hd' => ?_, fun _ => ⟨fun _ => trivial, fun _ => hdir⟩⟩
      cases hd.symm.trans hd'
      exact hm
  | rmdir dir name =>
    dsimp only at h
    split at h
    · cases h
    · rename_i d hd
      obtain ⟨_, w, hr, rfl⟩ := Tree.after_eq_some h
      obtain ⟨f, hm, hdir⟩ := rmdir_ok hw (hs.dentries _ _ _ hd) hr
      refine ⟨hs.after (hf f) nofun, fun d' hd' => ?_, fun _ => ⟨fun _ => trivial, fun _ => hdir⟩⟩
      cases hd.symm.trans hd'
      exact hm

end Runs

/-- In a run of successful calls every call leaves its parent directory and its object mirroring their clients if and
    only if no client's `link` changes, in what can be seen of it, a directory that mirrored it. --/
theorem mirrored_iff {s : Tree} {es : List Event} (hs : s.Sound) (hrun : (Run.run Tree.step s es).isSome) :
    Run.Always Tree.step (fun _ => True) Reflects s es ↔
      Run.Each Tree.step (fun s e => Held s e.call → LinkUnseen s e) s es := by
  refine Run.always_iff_each (fun _ _ => trivial) (fun s e hs hq => ⟨fun t ht hheld => ?_, fun t ht => (step_done hs ht).sound⟩)
    (fun s e t hs ht hr _ hheld => ?_) hs hrun
  · have hdone := step_done hs ht
    exact ⟨(hdone.dir hheld.dir).mpr (hq hheld), hdone.object⟩
  · exact ((step_done hs ht).dir hheld.dir).mp (hr t ht hheld).1

/-! ### A plain client -/

/-- A change of attributes. --/
def Change.ofAttrs (f : Attrs → Attrs) : Change := ⟨fun i => { i with attrs := f i.attrs }, fun _ => rfl, fun _ h => h⟩

/-- A directory with a new time and new links. --/
def Change.touchDir (now links : Nat) : Change :=
  .ofAttrs fun a => { a with mtime := now, ctime := now, nlink := a.nlink + links }

/-- An object that has lost a name. --/
def Change.dropLink (now : Nat) : Change := .ofAttrs fun a => { a with ctime := now, nlink := a.nlink - 1 }

def Made.of (o : NewObject) (ho : o.size < 2 ^ 63) (e : Env) (links : Nat) : Made :=
  ⟨.touchDir e.now links, o.inode e, fun _ => rfl, ho⟩

section Plain
variable {w : World} {e : Env} {o : NewObject}

/-- `w` has the environment `e`, some of whose answers may be used up. --/
def InEnv (w : World) (e : Env) : Prop := w.env = { e with script := w.env.script }

theorem InEnv.warm {w' : World} (h : InEnv w e) (hw : Warm w w') : InEnv w' e := by
  unfold InEnv at h ⊢
  rw [hw.env, h]

theorem clientMake_of (he : InEnv w e) (ho : o.size < 2 ^ 63) (cd : ClientIno) (name : List Char) (links : Nat) :
    clientMake cd name (.of o ho e links) w = Chunkfs.clientMake cd name o links w := by
  unfold clientMake Chunkfs.clientMake
  rw [bind_apply, bind_apply]
  cases hask : ask w with
  | error f u => rfl
  | ok r u =>
    cases r with
    | some f => rfl
    | none =>
      have hu : InEnv u e := he.warm (ask_ok hask)
      have hmade : (Made.of o ho e links).inode = o.inode u.env := by
        rw [hu]
        rfl
      have hdir : (Made.of o ho e links).dir.apply = fun i => i.touchDir u.env.now links := by
        rw [hu]
        rfl
      dsimp only
      rw [bind_ok (get_apply u), bind_ok (get_apply u), hmade, hdir]

/-- Over the client of the names, the operations that make an object are those that chunkfs has over it. --/
theorem make_of (he : InEnv w e) (ho : o.size < 2 ^ 63) (dir : Nat) (name : List Char) (links : Nat) :
    make dir name (.of o ho e links) o.nd w = makeObject dir name o links w := by
  unfold make makeObject
  rw [bind_apply, bind_apply]
  cases hvn : vnodeAt dir w with
  | error f u => rfl
  | ok vn u =>
    obtain ⟨-, hu⟩ := vnodeAt_ok hvn
    rw [hu]
    dsimp only
    cases vn.client with
    | none => rfl
    | some cd =>
      dsimp only
      rw [bind_apply, bind_apply]
      cases hnew : newInode w with
      | error f t => rfl
      | ok v t =>
        obtain ⟨t', ht, -, rfl⟩ := newInode_ok hnew
        have ht' : InEnv t' e := he.warm ht
        dsimp only
        rw [bind_apply, bind_apply]
        cases hnd : copyDownNd o.nd t'.withVnode with
        | error f t => rfl
        | ok _ t =>
          rw [copyDownNd_ok hnd]
          dsimp only
          exact bind_congr_at (clientMake_of (w := t'.withVnode) ht' ho cd name links) _

/-- And so is the one that removes a name. --/
theorem unlink_of (he : InEnv w e) (ops : ClientOps) (hops : ops.unlink = ⟨.touchDir e.now 0, .dropLink e.now⟩) (dir : Nat)
    (name : List Char) (d : Dentry) : unlink ops dir name d w = Chunkfs.unlink dir name d w := by
  have hact : ∀ cd, clientAct cd name d.client ops.unlink none w = clientUnlink cd name d.client w := by
    intro cd
    unfold clientAct clientUnlink
    rw [bind_apply, bind_apply, hops]
    cases hask : ask w with
    | error f u => rfl
    | ok r u =>
      cases r with
      | some f => rfl
      | none =>
        have hu : InEnv u e := he.warm (ask_ok hask)
        have hnow : e.now = u.env.now := by rw [hu]
        dsimp only
        rw [hnow]
        rfl
  unfold unlink Chunkfs.unlink
  rw [bind_apply, bind_apply]
  cases hvn : vnodeAt dir w with
  | error f u => rfl
  | ok vn u =>
    obtain ⟨-, hu⟩ := vnodeAt_ok hvn
    rw [hu]
    dsimp only
    rw [bind_apply, bind_apply]
    cases hvn' : vnodeAt d.inode w with
    | error f t => rfl
    | ok vn' t =>
      obtain ⟨-, ht⟩ := vnodeAt_ok hvn'
      rw [ht]
      dsimp only
      cases vn.client with
      | none => rfl
      | some cd =>
        cases vn'.client with
        | none => rfl
        | some c =>
          dsimp only
          exact bind_congr_at (hact cd) _

end Plain

def plainOps (e : Env) : ClientOps where
  create mode := .of ⟨mode, 0, 1, [], 0, true⟩ (Nat.two_pow_pos 63) e 0
  mkdir mode := .of ⟨0o040000 ||| mode, 0, 2, [], 4096, false⟩ (show 4096 < 2 ^ 63 by decide) e 1
  symlink oldname := .of ⟨0o120777, 0, 1, oldname.take 4095, min 4095 oldname.length, false⟩
    (Nat.lt_of_le_of_lt (Nat.min_le_left ..) (by decide)) e 0
  mknod mode dev := .of ⟨mode, dev, 1, [], 0, false⟩ (Nat.two_pow_pos 63) e 0
  link := ⟨.touchDir e.now 0, .ofAttrs fun a => { a with ctime := e.now, nlink := a.nlink + 1 }⟩
  unlink := ⟨.touchDir e.now 0, .dropLink e.now⟩
  rmdir := ⟨.ofAttrs fun a => { a with mtime := e.now, ctime := e.now, nlink := a.nlink - 1 },
    .ofAttrs fun a => { a with ctime := e.now, nlink := 0 }⟩

/-- An empty directory. --/
def emptyDir : Tree := ⟨oneDir 1, fun _ _ => none⟩

/-- A call at a time, over the plain client. --/
def Call.timed (now : Nat) (call : Call) : Event :=
  ⟨{ quietEnv with now := now }, plainOps { quietEnv with now := now }, call⟩

theorem emptyDir_sound : emptyDir.Sound where
  world := by
    refine ⟨fun v hv => if_neg fun h => ?_, fun c i hi => ?_⟩
    · rw [h] at hv
      exact absurd hv (show ¬2 ≤ 1 by decide)
    · change (if c = firstIno then some _ else (preparedDisk [1] quietEnv).inode c) = some i at hi
      split at hi
      · cases hi
        refine ⟨fun cd hcd => ?_, show 4096 * 1 < 2 ^ 63 by decide⟩
        rw [ClientInode.contData?_setFirst_four initCd_fits] at hcd
        cases hcd
        rfl
      · change (if c = ⟨1, 12⟩ then some _ else none) = some i at hi
        split at hi
        · cases hi
          refine ⟨fun cd hcd => ?_, show 4096 < 2 ^ 63 by decide⟩
          have hnext := ClientInode.contData?_eq_some.mp hcd .next
          exact (Option.some.inj hnext).symm.trans (by decide)
        · cases hi
  dentries _ _ _ hd := nomatch hd

theorem emptyDir_mirrors : Mirrors emptyDir.world 1 :=
  ⟨_, firstIno, (NewObject.inode ⟨0o040755, 0, 2, [], 4096 * 1, false⟩ quietEnv).setFirst 4 initCd, rfl, rfl,
    by simp [emptyDir, oneDir, Disk.insert], rfl⟩

/-- A file that is made and removed again. --/
theorem mirrored_made_and_removed : Run.Always Tree.step (fun _ => True) Reflects emptyDir
    [Call.timed 2 (.make (.create 0o100644) 1 ['a']), Call.timed 3 (.unlink 1 ['a'])] :=
  (mirrored_iff emptyDir_sound (by decide +kernel)).mpr
    ⟨fun _ => trivial, fun _ _ => ⟨fun _ => trivial, fun _ _ => trivial⟩⟩

/-- After a link at time 3 the directory still shows time 2. --/
theorem not_mirrored_linked : emptyDir.Sound ∧
    (Run.run Tree.step emptyDir [Call.timed 2 (.make (.create 0o100644) 1 ['a']), Call.timed 3 (.link 1 ['a'] 1 ['b'])]).isSome ∧
    ¬Run.Always Tree.step (fun _ => True) Reflects emptyDir
      [Call.timed 2 (.make (.create 0o100644) 1 ['a']), Call.timed 3 (.link 1 ['a'] 1 ['b'])] := by
  have htimes : (Run.run Tree.step emptyDir [Call.timed 2 (.make (.create 0o100644) 1 ['a']), Call.timed 3 (.link 1 ['a'] 1 ['b'])]).map
      (fun t => ((t.world.vnode 1).map (·.attrs.mtime), (t.world.disk.inode firstIno).map (·.attrs.mtime),
        (t.world.vnode 1).bind (·.client))) = some (some 2, some 3, some firstIno) := by decide +kernel
  refine ⟨emptyDir_sound, ?_, fun ha => ?_⟩
  · rw [← Option.isSome_map, htimes]
    rfl
  · obtain ⟨-, hcreate, hrest⟩ := ha
    obtain ⟨t, ht, htimes⟩ := Option.map_eq_some_iff.mp htimes
    obtain ⟨s, hs, hlink⟩ := Option.bind_eq_some_iff.mp ht
    obtain ⟨u, hu, hdone⟩ := Option.bind_eq_some_iff.mp hlink
    cases hdone
    obtain ⟨hdir, hfile⟩ := hcreate s hs ⟨emptyDir_mirrors, nofun⟩
    obtain ⟨-, hreflects, -⟩ := hrest s hs
    obtain ⟨⟨vn, c, i, hv, hn, hi, hstat⟩, -⟩ := hreflects t hu ⟨hdir, hfile⟩
    change t.world.vnode 1 = some vn at hv
    simp only [Prod.mk.injEq] at htimes
    obtain ⟨hmtime, hclientTime, hclient⟩ := htimes
    rw [hv] at hmtime hclient
    cases hclient.symm.trans hn
    rw [hi] at hclientTime
    have hsame : vn.attrs.mtime = i.attrs.mtime := congrArg Stat.mtime hstat
    have hnow : vn.attrs.mtime = 2 := Option.some.inj hmtime
    have hclientNow : i.attrs.mtime = 3 := Option.some.inj hclientTime
    rw [hnow, hclientNow] at hsame
    exact absurd hsame (by decide)

end Names

end Chunkfs
