import Chunkfs.Theorems.Memory
import Chunkfs.Theorems.System

/-! Removing names and letting go of files. `chunkfs_unlink` takes the name away and leaves the chain; when the dentry
    goes, the client frees the head and nothing else, so the files stay tidy where the chain was the head. -/

namespace Chunkfs
open Exec

/-! ### Removing a name -/

section Unlink
variable {w : World} {dir d : Dentry} {cs cs' : List Continuation}

/-- The world after a client has removed the name of one of its inodes. --/
def World.withoutName (w : World) (dir : ClientIno) (name : List Char) (c : ClientIno) : World :=
  { w with
    disk := ((w.disk.modify dir fun i => i.touchDir w.env.now 0).modify c fun i =>
      { i with attrs := { i.attrs with ctime := w.env.now, nlink := i.attrs.nlink - 1 } }).setEntry dir name none }

theorem clientUnlink_calm (hc : Calm w) (dir : ClientIno) (name : List Char) (c : ClientIno) :
    clientUnlink dir name c w = .ok (.ok ()) (w.withoutName dir name c) := by
  unfold clientUnlink
  rw [bind_ok (ask_calm hc)]
  rfl

/-- Of an inode only the times and the link count change. --/
theorem withoutName_inode {x : ClientIno} {i : ClientInode} (hi : w.disk.inode x = some i) (dir : ClientIno)
    (name : List Char) (c : ClientIno) : ∃ i', (w.withoutName dir name c).disk.inode x = some i' ∧ i'.xattr = i.xattr ∧
      i'.byte = i.byte ∧ i'.attrs.nlink = if x = c then i.attrs.nlink - 1 else i.attrs.nlink := by
  have hdir : ∃ i₁, (w.disk.modify dir fun i => i.touchDir w.env.now 0).inode x = some i₁ ∧ i₁.xattr = i.xattr ∧
      i₁.byte = i.byte ∧ i₁.attrs.nlink = i.attrs.nlink := by
    by_cases hx : x = dir
    · exact ⟨i.touchDir w.env.now 0, by rw [← hx, Disk.inode_modify_same, hi]; rfl, rfl, rfl, rfl⟩
    · exact ⟨i, (Disk.inode_modify_of_ne hx).trans hi, rfl, rfl, rfl⟩
  obtain ⟨i₁, hi₁, hxattr, hbyte, hlinks⟩ := hdir
  show ∃ i', ((w.disk.modify dir _).modify c _).inode x = some i' ∧ _
  by_cases hx : x = c
  · subst hx
    rw [Disk.inode_modify_same, hi₁, if_pos rfl, ← hlinks]
    exact ⟨_, rfl, hxattr, hbyte, rfl⟩
  · rw [Disk.inode_modify_of_ne hx, if_neg hx]
    exact ⟨i₁, hi₁, hxattr, hbyte, hlinks⟩

theorem Kept.withoutName (w : World) (dir : ClientIno) (name : List Char) (c : ClientIno) :
    Kept w (w.withoutName dir name c) where
  pool := rfl
  dir := rfl
  path := rfl
  inode x i hi := by
    obtain ⟨i', hi', hxattr, -⟩ := withoutName_inode hi dir name c
    exact ⟨i', hi', ClientInode.contData?_of_xattr hxattr⟩
  live _ hx := hx
  vnode _ vn hv := ⟨vn, hv, rfl, rfl⟩
  vnext := Nat.le_refl _
  fresh h := h
  ialloc h := h

/-- Copying an object's own client inode up. --/
theorem Chain.copyUp (h : Chain w d cs) (hc : Calm w) (hf : cs.length < w.env.fuel) :
    ∃ w', copyUpInode d.inode d.client w = .ok () w' ∧ Kept w w' ∧ w'.disk = w.disk ∧ w'.env = w.env := by
  obtain ⟨vn, hv, -⟩ := h.head.vnode
  obtain ⟨x, rest, rfl, hx⟩ := h.first
  obtain ⟨i, hi, -⟩ := (h.elem x (by simp)).allocated
  rw [hx] at hi
  obtain ⟨w', hr, hw⟩ := copyUpInode_calm h hc hf hv (inode?_of_live h.head.live hi)
  refine ⟨w', hr, Kept.trans ?_ hw.kept, hw.disk, Calm.env_eq (w := World.setVnode _ _ _) hc hw⟩
  exact .setVnode w hv _ rfl rfl

/-- `chunkfs_unlink` where every call works. --/
theorem unlink_removes (h : Chain w dir cs) (h' : Chain w d cs') (hc : Calm w) (hf : cs.length < w.env.fuel)
    (hf' : cs'.length < w.env.fuel) (name : List Char) :
    ∃ w', unlink dir.inode name d w = .ok (.ok ()) w' ∧ Kept w w' ∧
      w'.disk = (w.withoutName dir.client name d.client).disk := by
  obtain ⟨vd, hvd, hvdc, -⟩ := h.head.vnode
  obtain ⟨vn, hv, hvc, -⟩ := h'.head.vnode
  have at_vnode : ∀ {v : Nat} {x : Vnode}, w.vnode v = some x → vnodeAt v w = .ok x w := fun hx => by
    unfold vnodeAt
    rw [bind_ok (get_apply w), hx]
    rfl
  have hk₁ := Kept.withoutName w dir.client name d.client
  have hc₁ : Calm (w.withoutName dir.client name d.client) := hc
  obtain ⟨w₂, hr₂, hk₂, hdisk₂, henv₂⟩ := (h.kept hk₁).copyUp hc₁ hf
  have hc₂ : Calm w₂ := by rw [Calm, henv₂]; exact hc
  obtain ⟨w₃, hr₃, hk₃, hdisk₃, -⟩ := (h'.kept (hk₁.trans hk₂)).copyUp hc₂ (by rw [henv₂]; exact hf')
  refine ⟨w₃, ?_, (hk₁.trans hk₂).trans hk₃, hdisk₃.trans hdisk₂⟩
  unfold unlink
  rw [bind_ok (at_vnode hvd), bind_ok (at_vnode hv), hvdc, hvc]
  dsimp only
  rw [bind_ok (clientUnlink_calm hc _ _ _)]
  dsimp only
  rw [bind_ok hr₂, bind_ok hr₃]
  rfl

/-- `user.next` of the head says whether there is a continuation. --/
theorem FileChain.next_eq_zero_iff {cd : ContData} (h : FileChain w d cs)
    (hcd : w.disk.contData? d.client = some cd) : cd.next = 0 ↔ cs.length = 1 := by
  obtain ⟨a, rest, rfl, ha⟩ := h.first
  obtain rfl : a.cd = cd := Option.some.inj ((h.elem a (by simp)).data.symm.trans (ha ▸ hcd))
  cases rest with
  | nil => exact ⟨fun _ => rfl, fun _ => h.last a (by simp)⟩
  | cons b rest =>
    have hb := h.elem b (by simp)
    have hnext : a.cd.next = b.uino := (List.isChain_cons_cons.mp h.links).1.next
    refine ⟨fun h₀ => absurd ?_ hb.range.uino_ne_zero, fun h₁ => by simp at h₁⟩
    rw [← hb.uino, ← hnext, h₀]

end Unlink

/-! ### Letting go of a file -/

section Evict
variable {w : World} {root d x : Dentry} {files : List Dentry} {ch : Dentry → List Continuation}
  {cs : List Continuation} {c : ClientIno} {i : ClientInode}

theorem evict_inode (hi : w.disk.inode c = some i) (hne : c ≠ d.client) : (w.evict d).disk.inode c = some i := by
  simp only [World.evict, hi, hne, false_and, ↓reduceIte]

theorem inode_of_evict (hi : (w.evict d).disk.inode c = some i) : w.disk.inode c = some i := by
  simp only [World.evict] at hi
  split at hi
  · cases hi
  · rename_i j hj
    split at hi
    · cases hi
    · rw [hj]
      exact hi

/-- A chain without the head that goes stays. --/
theorem Chain.evict (h : Chain w x cs) (hout : d.client ∉ cs.map (·.inode)) (hne : x.inode ≠ d.inode) :
    Chain (w.evict d) x cs := by
  have hother : ∀ c ∈ cs, c.inode ≠ d.client := fun c hc he => hout (he ▸ List.mem_map_of_mem hc)
  have hlive : ∀ c ∈ cs, (w.evict d).icache c.inode = .live := fun c hc =>
    (if_neg (hother c hc)).trans (h.live c hc)
  refine ⟨h.toLinked.frame (fun c hc => ?_) (fun p _ => rfl) rfl ?_ fun vn hv => ⟨vn, (if_neg hne).trans hv, rfl, rfl⟩,
    hlive⟩
  · obtain ⟨i, hi, hcd⟩ := (h.elem c hc).allocated
    unfold Disk.contData?
    rw [evict_inode hi (hother c hc)]
    exact hcd
  · obtain ⟨c, rest, rfl, hc⟩ := h.first
    exact hc ▸ hlive c (by simp)

theorem FileChain.evict (h : FileChain w x cs) (hout : d.client ∉ cs.map (·.inode)) (hne : x.inode ≠ d.inode) :
    FileChain (w.evict d) x cs :=
  ⟨h.toChain.evict hout hne, fun vn hv => h.number vn ((if_neg hne).symm.trans hv), h.origin, h.adjoins, h.len⟩

namespace Tidy

/-- The head of a file is in its chain. --/
theorem head_mem (h : Tidy w root files ch) (hd : d ∈ files) : d.client ∈ (ch d).map (·.inode) := by
  obtain ⟨c, rest, hc, hcd⟩ := (h.chain d hd).first
  rw [hc, ← hcd]
  simp

/-- The files but one whose chain is its head stay tidy when it goes. --/
theorem evicted (h : Tidy w root files ch) (hd : d ∈ files) (hone : (ch d).length = 1) :
    Tidy (w.evict d) root (files.filter (· ≠ d)) ch := by
  have hother : ∀ x ∈ files.filter (· ≠ d), x ∈ files ∧ x ≠ d := fun x hx => by simpa using hx
  have hout : ∀ x ∈ files, x ≠ d → d.client ∉ (ch x).map (·.inode) := fun x hx hne hm =>
    hne (h.disjoint x hx d hd _ hm (h.head_mem hd))
  -- A continuation file is in the chain of another file.
  have hnames : ∀ k f j c, w.disk.path (contPath k f j) = some c →
      ∃ x ∈ files, x ≠ d ∧ [⟨f, j⟩, c] <:+: (ch x).map (·.inode) := fun k f j c hc => by
    obtain ⟨x, hx, hin⟩ := h.names k f j c hc
    refine ⟨x, hx, fun he => ?_, hin⟩
    have := hin.length_le
    rw [List.length_map, he, hone] at this
    simp at this
  refine ⟨⟨h.sound.pool, h.sound.ialloc, h.sound.dir, fun k f j c hc => ?_⟩, fun v hv => ?_, ?_, fun x hx => ?_,
    fun x hx y hy => h.address x (hother x hx).1 y (hother y hy).1, fun x hx => h.rootAddress x (hother x hx).1,
    fun x hx y hy => h.disjoint x (hother x hx).1 y (hother y hy).1, fun x hx => h.rootDisjoint x (hother x hx).1,
    fun k f j c hc => ?_⟩
  · obtain ⟨hk, hpool, hlt, i, hi⟩ := h.sound.file k f j c hc
    obtain ⟨x, hx, hne, hin⟩ := hnames k f j c hc
    refine ⟨hk, hpool, hlt, i, evict_inode hi fun he => hout x hx hne ?_⟩
    rw [← he]
    exact hin.subset (by simp)
  · have hnone := h.fresh v hv
    show (if v = d.inode then none else w.vnode v) = none
    rw [hnone, ite_self]
  · obtain ⟨c, hc⟩ := h.top
    refine ⟨c, hc.evict (fun hm => ?_) (h.rootAddress d hd).symm⟩
    obtain ⟨y, rest, hy, hyd⟩ := hc.first
    obtain ⟨rfl, -⟩ := List.cons.inj hy
    rw [List.map_singleton, List.mem_singleton, hyd] at hm
    exact h.rootDisjoint d hd (hm ▸ h.head_mem hd)
  · obtain ⟨hx, hne⟩ := hother x hx
    exact (h.chain x hx).evict (hout x hx hne) fun he => hne (h.address x hx d hd he)
  · obtain ⟨x, hx, hne, hin⟩ := hnames k f j c hc
    exact ⟨x, by simpa using ⟨hx, hne⟩, hin⟩

end Tidy

end Evict

end Chunkfs
