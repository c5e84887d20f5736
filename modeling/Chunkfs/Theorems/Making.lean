import Chunkfs.Theorems.NewFile

/-! Making objects. `chunkfs_create`, `chunkfs_mkdir`, `chunkfs_symlink` and `chunkfs_mknod` share their body; where
    every call works it fails and keeps the world, or there is one new object, whose chain is its head. It stops only
    over memory that was never set (`Env.Tame`). -/

namespace Chunkfs
open Exec Flat Word

/-- `d` is a new object in the directory `dir`, and the rest of the world is kept. --/
structure Made (w : World) (dir : Dentry) (o : NewObject) (d : Dentry) (w' : World) : Prop where
  inode : d.inode = w.vnext
  vnext : w'.vnext = w.vnext + 1
  client : d.client = ⟨dir.client.chunk, w.env.ialloc dir.client.chunk⟩
  free : w.disk.inode d.client = none
  live : w'.icache d.client = .live
  vnode : ∃ vn, w'.vnode d.inode = some vn ∧ vn.client = some d.client ∧ vn.ino = d.client.uino ∧ vn.size = s64 o.size
  disk : ∃ i, w'.disk.inode d.client = some i ∧ i.contData? = some initCd ∧ i.size = o.size
  others : ∀ x, x ≠ d.client → w.disk.inode x = none → w'.disk.inode x = none
  env : w'.env = w.env

/-- What memory that is never set holds does no harm. --/
def Env.Tame (e : Env) : Prop := e.ndDepth ≤ maxNestedLinks ∧ e.slotWild = false

/-- What stops a call of which every part works: memory that was never set. --/
def Env.Stops (e : Env) (f : Stop) (_ : World) : Prop := f = .oops ∧ ¬e.Tame

/-- What stops things that are done in turn, each in its environment. --/
def Stopped {α : Type} (xs : List (Env × α)) (f : Stop) (w : World) : Prop := ∃ x ∈ xs, x.1.Stops f w

section Stopped
variable {α : Type} {xs : List (Env × α)}

theorem stopped_head (x : Env × α) (xs : List (Env × α)) (f : Stop) (w : World) (h : x.1.Stops f w) :
    Stopped (x :: xs) f w :=
  ⟨x, List.mem_cons_self, h⟩

theorem stopped_tail (x : Env × α) (f : Stop) (w : World) : Stopped xs f w → Stopped (x :: xs) f w := by
  rintro ⟨y, hy, h⟩
  exact ⟨y, List.mem_cons_of_mem _ hy, h⟩

theorem not_stopped (h : ∀ x ∈ xs, x.1.Tame) (f : Stop) (w : World) : ¬Stopped xs f w := by
  rintro ⟨x, hx, -, hwild⟩
  exact hwild (h x hx)

end Stopped

section Steps
variable {w : World} {dir : Dentry} {name : List Char} {o : NewObject} {links : Nat} {c : ClientIno}

/-- The world after `chunkfs_new_inode`. --/
def World.withVnode (w : World) : World :=
  { w with
    vnode := fun x => if x = w.vnext then some ⟨0, zeroAttrs, 0, none⟩ else w.vnode x
    vnext := w.vnext + 1 }

theorem newInode_calm (hc : Calm w) : newInode w = .ok w.vnext w.withVnode := by
  unfold newInode
  rw [bind_ok (ask_calm hc)]
  rfl

theorem initDentry_calm (hc : Calm w) : initDentry w = .ok true w := by
  unfold initDentry
  rw [bind_ok (ask_calm hc)]
  exact bind_ok (ask_calm hc)

/-- The world after a client has made an object. --/
def World.withObject (w : World) (dir : ClientIno) (name : List Char) (o : NewObject) (links : Nat) (c : ClientIno) :
    World :=
  { w with
    disk := ((w.disk.modify dir fun i => i.touchDir w.env.now links).insert c (o.inode w.env)).setEntry dir name (some c)
    icache := fun x => if x = c then .live else w.icache x }

theorem clientMake_calm (hc : Calm w) (dir : ClientIno) (name : List Char) (o : NewObject) (links : Nat) :
    (∃ e, clientMake dir name o links w = .ok (.error e) w) ∨
      w.disk.inode ⟨dir.chunk, w.env.ialloc dir.chunk⟩ = none ∧
        clientMake dir name o links w = .ok (.ok ⟨dir.chunk, w.env.ialloc dir.chunk⟩)
          (w.withObject dir name o links ⟨dir.chunk, w.env.ialloc dir.chunk⟩) := by
  unfold clientMake
  rw [bind_ok (ask_calm hc)]
  simp only [bind_ok (get_apply w)]
  by_cases he : (w.disk.entry dir name).isSome = true
  · exact Or.inl ⟨.eexist, by rw [if_pos he]; rfl⟩
  · by_cases hi : (w.disk.inode ⟨dir.chunk, w.env.ialloc dir.chunk⟩).isSome = true
    · exact Or.inl ⟨.enospc, by rw [if_neg he, if_pos hi]; rfl⟩
    · refine Or.inr ⟨by simpa using hi, ?_⟩
      rw [if_neg he, if_neg hi]
      rfl

theorem Kept.withVnode (hw : Fresh w) : Kept w w.withVnode where
  pool := rfl
  dir := rfl
  path := rfl
  inode _ i hi := ⟨i, hi, rfl⟩
  live _ hc := hc
  vnode v vn hv := by
    have hne : v ≠ w.vnext := fun he => by
      rw [he, hw _ (Nat.le_refl _)] at hv
      cases hv
    exact ⟨vn, by simp [World.withVnode, hne, hv], rfl, rfl⟩
  vnext := Nat.le_succ _
  fresh _ v hv := by
    have hlt : w.vnext + 1 ≤ v := hv
    have hne : v ≠ w.vnext := by omega
    simp only [World.withVnode, hne, ↓reduceIte]
    exact hw v (by omega)
  ialloc h := h

theorem Kept.withObject (hfree : w.disk.inode c = none) (dir : ClientIno) (name : List Char) (o : NewObject)
    (links : Nat) : Kept w (w.withObject dir name o links c) where
  pool := rfl
  dir := rfl
  path := rfl
  inode x i hi := by
    have hx : x ≠ c := fun he => by
      rw [he, hfree] at hi
      cases hi
    by_cases hd : x = dir
    · exact ⟨i.touchDir w.env.now links, by
        simp [World.withObject, Disk.setEntry, Disk.insert, hd ▸ hx, hd, Disk.modify, hd ▸ hi], rfl⟩
    · exact ⟨i, by simp [World.withObject, Disk.setEntry, Disk.insert, hx, hd, Disk.modify, hi], rfl⟩
  live x hx := by
    by_cases hxc : x = c <;> simp [World.withObject, hxc, hx]
  vnode _ vn hv := ⟨vn, hv, rfl, rfl⟩
  vnext := Nat.le_refl _
  fresh h := h
  ialloc h := h

theorem World.withObject_inode_none {x : ClientIno} (hx : x ≠ c) (hn : w.disk.inode x = none) (dir : ClientIno)
    (name : List Char) (o : NewObject) (links : Nat) : (w.withObject dir name o links c).disk.inode x = none := by
  show (Disk.insert (w.disk.modify dir _) c _).inode x = none
  simp only [Disk.insert, hx, ↓reduceIte]
  exact Disk.inode_modify_eq_none.mpr hn

/-- The nameidata that is handed down changes nothing that is read again. --/
theorem copyDownNd_ok {nd : Bool} {u : Unit} {w' : World} (h : copyDownNd nd w = .ok u w') : w' = w := by
  unfold copyDownNd at h
  rw [bind_ok (get_apply w)] at h
  split at h
  · cases h
  · cases h
    rfl

theorem copyDownNd_meets (w : World) (nd : Bool) :
    Meets (copyDownNd nd) w (fun _ w' => w' = w) w.env.Stops := by
  refine meets_get_bind ?_
  split
  · rename_i hbad
    exact ⟨rfl, fun ht => absurd hbad.2 (Nat.not_lt.mpr ht.1)⟩
  · exact rfl

theorem copyDownNd_stays {R : World → World → Prop} [IsPreorder World R] (nd : Bool) : Stays R (copyDownNd nd) :=
  .get_bind fun _ => .ite (.throw _) (.pure _)

/-- An inode that leaves memory has left it. --/
theorem iput_ok {v : Nat} {u : Unit} {w' : World} (h : iput v w = .ok u w') :
    w' = { w with vnode := fun x => if x = v then none else w.vnode x } := by
  unfold iput at h
  rw [bind_ok (get_apply w)] at h
  split at h
  · cases h
  · cases h
    rfl

theorem iput_stays {R : World → World → Prop} [IsPreorder World R] {v : Nat}
    (h : ∀ w : World, R w { w with vnode := fun x => if x = v then none else w.vnode x }) : Stays R (iput v) := by
  intro w
  unfold iput
  rw [bind_ok (get_apply w)]
  split
  · exact Std.Refl.refl _
  · exact h w

/-- A call that fails frees the chunkfs inode again. --/
theorem iput_meets (hw : Fresh w) :
    Meets (iput w.vnext) w.withVnode (fun _ w' => w' = { w with vnext := w.vnext + 1 }) w.env.Stops := by
  have hnone := hw w.vnext (Nat.le_refl _)
  refine meets_get_bind ?_
  split
  · rename_i hwild
    refine ⟨rfl, fun ht => ?_⟩
    have htame : w.withVnode.env.slotWild = false := ht.2
    rw [htame] at hwild
    cases hwild.2
  · show World.mk .. = _
    simp only [World.withVnode, World.mk.injEq, and_true, true_and]
    funext x
    by_cases hx : x = w.vnext <;> simp [hx, hnone]

theorem Kept.skipVnode (w : World) : Kept w { w with vnext := w.vnext + 1 } where
  pool := rfl
  dir := rfl
  path := rfl
  inode _ i hi := ⟨i, hi, rfl⟩
  live _ hc := hc
  vnode _ vn hv := ⟨vn, hv, rfl, rfl⟩
  vnext := Nat.le_succ _
  fresh hw v hv := hw v (Nat.le_of_succ_le hv)
  ialloc h := h

end Steps

section Make
variable {w w₀ : World} {dir : Dentry} {cs : List Continuation} {c : ClientIno} {v : Nat}

/-- What happens at an inode the world before did not have leaves that world kept. --/
theorem Kept.stored_new (hk : Kept w₀ w) (hfree : w₀.disk.inode c = none) (cd : ContData) (k : Nat) :
    Kept w₀ (w.stored c cd k) where
  pool := hk.pool
  dir := hk.dir
  path := hk.path
  inode x i hi := by
    have hx : x ≠ c := fun he => by
      rw [he, hfree] at hi
      cases hi
    obtain ⟨i', hi', hcd⟩ := hk.inode x i hi
    exact ⟨i', by show (w.disk.modify c _).inode x = _; rw [Disk.inode_modify_of_ne hx]; exact hi', hcd⟩
  live := hk.live
  vnode := hk.vnode
  vnext := hk.vnext
  fresh := hk.fresh
  ialloc := hk.ialloc

theorem Fresh.setVnode (hw : Fresh w) (hlt : v < w.vnext) (vn : Vnode) : Fresh (w.setVnode v vn) := fun x hx => by
  have hle : w.vnext ≤ x := hx
  have hne : x ≠ v := by omega
  simp only [World.setVnode, hne, ↓reduceIte]
  exact hw x hle

theorem Kept.setVnode_new (hk : Kept w₀ w) (hv : w₀.vnode v = none) (hlt : v < w.vnext) (vn : Vnode) :
    Kept w₀ (w.setVnode v vn) where
  pool := hk.pool
  dir := hk.dir
  path := hk.path
  inode := hk.inode
  live := hk.live
  vnode x vx hx := by
    have hne : x ≠ v := fun he => by
      rw [he, hv] at hx
      cases hx
    obtain ⟨vx', hx', hc⟩ := hk.vnode x vx hx
    exact ⟨vx', by simp [World.setVnode, hne, hx'], hc⟩
  vnext := hk.vnext
  fresh hw := (hk.fresh hw).setVnode hlt vn
  ialloc := hk.ialloc

theorem startInode_eq {vn : Vnode} (hv : w.vnode v = some vn) (c : ClientIno) (chunkId : Nat) :
    startInode v c chunkId w =
      copyUpInode v c (w.setVnode v { vn with client := some c, ino := makeUino chunkId c.ino }) :=
  bind_ok (modifyVnode_apply _ hv)

/-- A chunkfs inode is started on a client inode that has initial data. --/
theorem startInode_calm {i : ClientInode} (hc : Calm w) (hf : 1 < w.env.fuel) (hr : c.InRange) (hp : c.chunk ∈ w.pool)
    (hl : w.icache c = .live) (hi : w.disk.inode c = some i) (hcd : i.contData? = some initCd) {vn : Vnode}
    (hv : w.vnode v = some vn) :
    ∃ w', startInode v c c.chunk w = .ok () w' ∧ Warm (w.setVnode v ⟨c.uino, i.attrs, s64 i.size, some c⟩) w' := by
  -- The chunkfs inode on the new client inode has a chain of one element.
  obtain ⟨vn₂, hvn₂⟩ : ∃ vn₂ : Vnode, vn₂ = { vn with client := some c, ino := makeUino c.chunk c.ino } := ⟨_, rfl⟩
  have hv₂ : (w.setVnode v vn₂).vnode v = some vn₂ := by simp [World.setVnode]
  have hchain : FileChain (w.setVnode v vn₂) ⟨v, c⟩ [headOf ⟨v, c⟩] :=
    chain_of_head hr hp hl hi hcd hv₂ (by rw [hvn₂]) (by rw [hvn₂]; exact ClientIno.uino_def c)
  have hi₂ : (w.setVnode v vn₂).inode? c = some i := inode?_of_live hl hi
  obtain ⟨w', hr', hw'⟩ := copyUpInode_calm hchain.toChain hc hf hv₂ hi₂
  have hsize : sumSizes (w.setVnode v vn₂) [c] 0 = s64 i.size := by
    rw [sumSizes_cons, World.iSize_of_live (w := w.setVnode v vn₂) hl hi, Int.zero_add]
    exact List.foldl_nil
  rw [World.setVnode_setVnode, show [headOf ⟨v, c⟩].map (·.inode) = [c] from rfl, hsize, hvn₂,
    ClientIno.uino_def] at hw'
  refine ⟨w', ?_, hw'⟩
  rw [startInode_eq hv, ← hvn₂]
  exact hr'

/-- A client inode gets its data, and the chunkfs inode is started on it. --/
theorem startNew {i : ClientInode} (hc : Calm w) (hf : 1 < w.env.fuel) (hr : c.InRange) (hp : c.chunk ∈ w.pool)
    (hl : w.icache c = .live) (hi : w.disk.inode c = some i) {vn : Vnode} (hv : w.vnode v = some vn) :
    ∃ w₁ w', initContData c w = .ok (.ok ()) w₁ ∧ startInode v c c.chunk w₁ = .ok () w' ∧
      Warm ((w.stored c initCd 4).setVnode v ⟨c.uino, i.attrs, s64 i.size, some c⟩) w' := by
  obtain ⟨r, w₁, hr₁, rfl, hw₁⟩ := (setContData_stores hc.honest (inode?_of_live hl hi) initCd).returns
    fun e t hh => by
      have := hh.2.1
      rw [hc] at this
      cases this
  have hc₁ : Calm w₁ := Calm.warm (w := w.stored c initCd 4) hc hw₁
  have henv₁ : w₁.env = w.env := Calm.env_eq (w := w.stored c initCd 4) hc hw₁
  have hi₁ : w₁.disk.inode c = some (i.setFirst 4 initCd) := by
    rw [hw₁.disk]
    show (w.disk.modify c _).inode c = _
    rw [Disk.inode_modify_same, hi]
    rfl
  have hl₁ : w₁.icache c = .live := hw₁.live (show (w.stored c initCd 4).icache c = .live from hl)
  have hp₁ : c.chunk ∈ w₁.pool := by
    rw [hw₁.pool]
    exact hp
  have hv₁ : w₁.vnode v = some vn := by
    rw [hw₁.vnode]
    exact hv
  obtain ⟨w₃, hr₃, hw₃⟩ := startInode_calm hc₁ (by rw [henv₁]; exact hf) hr hp₁ hl₁ hi₁
    (ClientInode.contData?_setFirst_four initCd_fits _) hv₁
  rw [ClientInode.attrs_setFirst, ClientInode.size_setFirst] at hw₃
  exact ⟨w₁, w₃, hr₁, hr₃, (hw₁.setVnode v _).trans hw₃⟩

/-- The new client inode gets its data, the chunkfs inode is started on it, and the directory is copied up. --/
theorem startObject {i : ClientInode} (hd : Chain w₀ dir cs) (hk : Kept w₀ w) (hfree : w₀.disk.inode c = none)
    (hvfree : w₀.vnode v = none) (hlt : v < w.vnext) (hc : Calm w) (hf : cs.length < w.env.fuel) (hf' : 1 < w.env.fuel)
    (hr : c.InRange) (hp : c.chunk ∈ w.pool) (hl : w.icache c = .live) (hi : w.disk.inode c = some i) {vn : Vnode}
    (hv : w.vnode v = some vn) :
    ∃ w₁ w', initContData c w = .ok (.ok ()) w₁ ∧
      (do startInode v c c.chunk; copyUpInode dir.inode dir.client : Kern Unit) w₁ = .ok () w' ∧ Kept w₀ w' ∧
      w'.vnext = w.vnext ∧ w'.env = w.env ∧ w'.disk = w.disk.modify c (·.setFirst 4 initCd) ∧ w'.icache c = .live ∧
      ∃ vn', w'.vnode v = some vn' ∧ vn'.client = some c ∧ vn'.ino = c.uino ∧ vn'.size = s64 i.size := by
  obtain ⟨w₁, w₃, hr₁, hr₃, hw₃⟩ := startNew hc hf' hr hp hl hi hv
  have hk₃ : Kept w₀ w₃ := ((hk.stored_new hfree initCd 4).setVnode_new hvfree hlt _).trans hw₃.kept
  have hd₃ := hd.kept hk₃
  have hc₂ : Calm ((w.stored c initCd 4).setVnode v ⟨c.uino, i.attrs, s64 i.size, some c⟩) := hc
  have hc₃ : Calm w₃ := hc₂.warm hw₃
  have henv₃ : w₃.env = w.env := hc₂.env_eq hw₃
  obtain ⟨vd, hvd, -⟩ := hd₃.head.vnode
  obtain ⟨x, rest, hx, hxd⟩ := hd₃.first
  obtain ⟨id, hid, -⟩ := (hd₃.elem x (by rw [hx]; simp)).allocated
  rw [hxd] at hid
  obtain ⟨w₄, hr₄, hw₄⟩ := copyUpInode_calm hd₃ hc₃ (by rw [henv₃]; exact hf) hvd (inode?_of_live hd₃.head.live hid)
  have hup : Kept w₃ (w₃.setVnode dir.inode { vd with attrs := id.attrs, size := sumSizes w₃ (cs.map (·.inode)) 0 }) :=
    .setVnode w₃ hvd _ rfl rfl
  have hne : v ≠ dir.inode := fun he => by
    obtain ⟨vd₀, hvd₀, -⟩ := hd.head.vnode
    rw [← he, hvfree] at hvd₀
    cases hvd₀
  have hfin : w₄.vnode v = some ⟨c.uino, i.attrs, s64 i.size, some c⟩ := by
    have h₄ : w₄.vnode v = w₃.vnode v := by
      rw [hw₄.vnode]
      exact if_neg hne
    rw [h₄, hw₃.vnode]
    exact if_pos rfl
  exact ⟨w₁, w₄, hr₁, (bind_ok hr₃).trans hr₄, hk₃.trans (hup.trans hw₄.kept), hw₄.vnext.trans hw₃.vnext,
    (Calm.env_eq (w := World.setVnode _ _ _) hc₃ hw₄).trans henv₃, hw₄.disk.trans hw₃.disk,
    hw₄.live (hw₃.live hl), _, hfin, rfl, rfl, rfl⟩

/-- The body of the four operations, on a directory whose chain is in memory. --/
theorem makeObject_meets (h : Chain w dir cs) (hs : Sound w) (hfresh : Fresh w) (hc : Calm w)
    (hf : cs.length < w.env.fuel) (hf' : 1 < w.env.fuel) (name : List Char) (o : NewObject) (links : Nat) :
    Meets (makeObject dir.inode name o links) w (fun r w' => Kept w w' ∧ ∀ d, r = .ok d → Made w dir o d w')
      w.env.Stops := by
  obtain ⟨vd, hvd, hdc, hdk⟩ := h.head.vnode
  have hc₁ : Calm w.withVnode := hc
  have hdir : vnodeAt dir.inode w = .ok vd w := by
    unfold vnodeAt
    rw [bind_ok (get_apply w), hvd]
    rfl
  unfold makeObject
  refine meets_bind_ok hdir ?_
  rw [hdc]
  refine meets_bind_ok (newInode_calm hc) ((copyDownNd_meets w.withVnode o.nd).bind ?_)
  rintro _ _ rfl
  rcases clientMake_calm hc₁ dir.client name o links with ⟨e, he⟩ | ⟨hfree, hmake⟩
  · refine meets_bind_ok he ((iput_meets hfresh).bind ?_)
    rintro _ _ rfl
    exact ⟨.skipVnode w, nofun⟩
  · generalize hceq : (⟨dir.client.chunk, w.withVnode.env.ialloc dir.client.chunk⟩ : ClientIno) = c at hfree hmake
    have hceq' : c = ⟨dir.client.chunk, w.env.ialloc dir.client.chunk⟩ := hceq.symm
    have hk₂ : Kept w (w.withVnode.withObject dir.client name o links c) :=
      (Kept.withVnode hfresh).trans (.withObject hfree _ _ _ _)
    generalize hw₂ : w.withVnode.withObject dir.client name o links c = w₂ at hmake hk₂
    have hv₂ : w₂.vnode w.vnext = some ⟨0, zeroAttrs, 0, none⟩ := by
      rw [← hw₂]
      exact if_pos rfl
    have hi₂ : w₂.disk.inode c = some (o.inode w.env) := by
      rw [← hw₂]
      simp [World.withObject, Disk.setEntry, Disk.insert, World.withVnode]
    have hl₂ : w₂.icache c = .live := by
      rw [← hw₂]
      simp [World.withObject]
    have hnext₂ : w₂.vnext = w.vnext + 1 := by rw [← hw₂]; rfl
    have henv₂ : w₂.env = w.env := by rw [← hw₂]; rfl
    have hnone₂ : ∀ x, x ≠ c → w.disk.inode x = none → w₂.disk.inode x = none := fun x hx hn => by
      rw [← hw₂]
      exact World.withObject_inode_none hx hn _ _ _ _
    have hchunk : c.chunk = dir.client.chunk := by rw [hceq']
    have hpool : c.chunk ∈ w.pool := by
      obtain ⟨x, rest, hx, hxd⟩ := h.first
      rw [hchunk, ← hxd]
      exact (h.elem x (by rw [hx]; simp)).pool
    have hr : c.InRange := ⟨(hs.pool _ hpool).1, (hs.pool _ hpool).2, by rw [hceq']; exact hs.ialloc _⟩
    obtain ⟨w₃, w', hinit, hrest, hk, hnext, henv, hdisk, hlive, hvn⟩ := startObject h hk₂ hfree
      (hfresh _ (Nat.le_refl _)) (by omega) (by rw [Calm, henv₂]; exact hc) (by rw [henv₂]; exact hf)
      (by rw [henv₂]; exact hf') hr (by rw [hk₂.pool]; exact hpool) hl₂ hi₂ hv₂
    refine meets_of_ok (a := .ok ⟨w.vnext, c⟩) (t := w') ?_ ⟨hk, fun d hd => ?_⟩
    · rw [bind_ok hmake]
      dsimp only
      rw [bind_ok hinit, hdk, ← hchunk]
      have := bind_ok (f := fun _ => (pure (.ok ⟨w.vnext, c⟩) : Kern (Except Errno Dentry))) hrest
      rw [bind_assoc] at this
      exact this
    · cases hd
      refine ⟨rfl, by rw [hnext, hnext₂], hceq', hfree, hlive, hvn, ⟨(o.inode w.env).setFirst 4 initCd, ?_, ?_, ?_⟩,
        fun x hx hn => ?_, henv.trans henv₂⟩
      · rw [hdisk, Disk.inode_modify_same, hi₂]
        rfl
      · exact ClientInode.contData?_setFirst_four initCd_fits _
      · exact ClientInode.size_setFirst _ _ _
      · rw [hdisk]
        exact Disk.inode_modify_eq_none.mpr (hnone₂ x hx hn)

end Make

end Chunkfs
