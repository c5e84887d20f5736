import Chunkfs.Theorems.Failures
import Chunkfs.Theorems.Making

/-! Finding objects. Where every call works, `chunkfs_lookup` and `chunkfs_read_root` end in the same way: the client
    inode they have found gets initial data, and a new chunkfs inode is started on it. -/

namespace Chunkfs
open Exec Word

/-- The world after a client inode has been found. --/
def World.withFound (w : World) (c : ClientIno) (i : ClientInode) : World :=
  (w.withVnode.stored c initCd 4).setVnode w.vnext ⟨c.uino, i.attrs, s64 i.size, some c⟩

section Found
variable {w w' : World} {d : Dentry} {cs : List Continuation} {c x : ClientIno} {i : ClientInode} {dir : Nat}
  {name : List Char}

theorem Warm.withFound (h : Warm w w') (c : ClientIno) (i : ClientInode) : Warm (w.withFound c i) (w'.withFound c i) := by
  refine ⟨?_, h.pool, ?_, congrArg (· + 1) h.vnext, h.script, h.env, h.icache⟩
  · exact congrArg (fun d : Disk => d.modify c (·.setFirst 4 initCd)) h.disk
  · simp only [World.withFound, World.withVnode, World.stored, World.setDisk, World.setVnode, h.vnext, h.vnode]

theorem withFound_entry (w : World) (c : ClientIno) (i : ClientInode) : (w.withFound c i).disk.entry = w.disk.entry := rfl

theorem withFound_path (w : World) (c : ClientIno) (i : ClientInode) : (w.withFound c i).disk.path = w.disk.path := rfl

theorem withFound_inode (w : World) (hx : x ≠ c) (i : ClientInode) : (w.withFound c i).disk.inode x = w.disk.inode x :=
  Disk.inode_modify_of_ne hx

theorem withFound_inode_same (hi : w.disk.inode c = some i) :
    (w.withFound c i).disk.inode c = some (i.setFirst 4 initCd) := by
  have h : (w.withFound c i).disk.inode c = (w.disk.inode c).map (·.setFirst 4 initCd) := Disk.inode_modify_same
  rw [h, hi, Option.map_some]

theorem withFound_vnode_same (w : World) (c : ClientIno) (i : ClientInode) :
    (w.withFound c i).vnode w.vnext = some ⟨c.uino, i.attrs, s64 i.size, some c⟩ := if_pos rfl

theorem withFound_vnode {v : Nat} (hv : v ≠ w.vnext) (c : ClientIno) (i : ClientInode) :
    (w.withFound c i).vnode v = w.vnode v := (if_neg hv).trans (if_neg hv)

theorem Sound.withFound (h : Sound w) (c : ClientIno) (i : ClientInode) : Sound (w.withFound c i) :=
  (h.modify c (·.setFirst 4 initCd)).frame rfl id rfl rfl fun _ hx => hx

theorem Fresh.withFound (h : Fresh w) (c : ClientIno) (i : ClientInode) : Fresh (w.withFound c i) := fun v hv => by
  have hle : w.vnext + 1 ≤ v := hv
  rw [withFound_vnode (Nat.ne_of_gt hle) c i]
  exact h v (Nat.le_of_succ_le hle)

theorem setVnode_eq {v : Nat} {vn : Vnode} (hv : w.vnode v = some vn) : w.setVnode v vn = w := by
  have hsame : (fun x => if x = v then some vn else w.vnode x) = w.vnode := by
    funext x
    by_cases hx : x = v
    · rw [if_pos hx, hx, hv]
    · rw [if_neg hx]
  unfold World.setVnode
  rw [hsame]

/-- A chain that does not have the inode is as it was. --/
theorem FileChain.withFound (h : FileChain w d cs) (hfresh : Fresh w) (hc : c ∉ cs.map (·.inode)) (i : ClientInode) :
    FileChain (w.withFound c i) d cs := by
  have hnew := (Kept.withVnode hfresh).setVnode_new (hfresh _ (Nat.le_refl _)) (Nat.lt_succ_self _)
    ⟨c.uino, i.attrs, s64 i.size, some c⟩
  exact (h.kept hnew).stored_outside hc initCd 4

/-- The object that was found has a chain of one element. --/
theorem FileChain.found (hw : Warm (w.withFound c i) w') (hl : w'.icache c = .live) (hr : c.InRange)
    (hp : c.chunk ∈ w.pool) (hi : w.disk.inode c = some i) : FileChain w' ⟨w.vnext, c⟩ [headOf ⟨w.vnext, c⟩] := by
  have hi' : w'.disk.inode c = some (i.setFirst 4 initCd) := by
    rw [hw.disk]
    exact withFound_inode_same hi
  have hv' : w'.vnode w.vnext = some ⟨c.uino, i.attrs, s64 i.size, some c⟩ := by
    rw [hw.vnode]
    exact withFound_vnode_same w c i
  exact chain_of_head hr (by rw [hw.pool]; exact hp) hl hi' (ClientInode.contData?_setFirst_four initCd_fits i) hv' rfl rfl

/-- The root directory is found at its path; its number there is the one that `chunkfs_read_root` goes by. --/
theorem readRoot_finds (hc : Calm w) (hf : 1 < w.env.fuel) (hnum : c = ⟨1, 12⟩) (hp : w.disk.path rootPath = some c)
    (hr : w.Readable c) (hpool : 1 ∈ w.pool) (hi : w.disk.inode c = some i) :
    ∃ w', readRoot 1 w = .ok (.ok ⟨w.vnext, c⟩) w' ∧ Warm (w.withFound c i) w' ∧ w'.icache c = .live := by
  have hc₀ : Calm w.withVnode := hc
  obtain ⟨r, w₁, hr₁, rfl, hw₁, hl₁⟩ := (kernPath_finds (w := w.withVnode) hc₀.honest hp hr).returns fun _ _ =>
    hc₀.not_halted
  have hc₁ := hc₀.warm hw₁
  obtain ⟨w₂, hr₂, hw₂⟩ := (dget_reads (w := w₁) c).calm hc₁
  have hw := hw₁.trans hw₂
  have hc₂ := hc₀.warm hw
  have hv₂ : w₂.vnode w.vnext = some ⟨0, zeroAttrs, 0, none⟩ := by
    rw [hw.vnode]
    exact if_pos rfl
  obtain ⟨w₃, w₄, hr₃, hr₄, hw₄⟩ := startNew (v := w.vnext) hc₂ (by rw [hw.fuel]; exact hf)
    (by rw [hnum]; exact ⟨by decide, by decide, by decide⟩) (by rw [hw.pool, hnum]; exact hpool) (hw₂.live hl₁)
    (by rw [hw.disk]; exact hi) hv₂
  rw [show c.chunk = 1 by rw [hnum]] at hr₄
  have hfound : Warm (w.withFound c i) w₄ := .trans ((hw.stored c initCd 4).setVnode w.vnext _) hw₄
  have hc₄ : Calm w₄ := Calm.warm (w := w.withFound c i) hc hfound
  have hv₄ : w₄.vnode w.vnext = some ⟨c.uino, i.attrs, s64 i.size, some c⟩ := by
    rw [hfound.vnode]
    exact withFound_vnode_same w c i
  -- The number is set once more, to the same value.
  have hself : c.uino = makeUino 1 12 := by rw [← ClientIno.uino_def, hnum]
  have hnumber : w₄.setVnode w.vnext { (⟨c.uino, i.attrs, s64 i.size, some c⟩ : Vnode) with
      ino := makeUino 1 12 } = w₄ := setVnode_eq (by rw [hv₄, ← hself])
  have hr₅ : modifyVnode w.vnext (fun vn => { vn with ino := makeUino 1 12 }) w₄ = .ok () w₄ :=
    (modifyVnode_apply _ hv₄).trans (congrArg _ hnumber)
  refine ⟨w₄, ?_, hfound, hw₄.live (hw₂.live hl₁)⟩
  unfold readRoot
  rw [bind_ok (newInode_calm hc), bind_ok hr₁]
  dsimp only
  rw [bind_ok hr₂, bind_ok hr₃]
  refine (bind_ok hr₄).trans ((bind_ok hr₅).trans ((bind_ok (ask_calm hc₄)).trans ?_))
  refine (bind_ok (initDentry_calm hc₄)).trans ?_
  rw [if_pos rfl, bind_ok (get_apply _), findChunk_of_mem (by rw [hfound.pool]; exact hpool)]
  rfl

/-- A name in a directory is found. --/
theorem lookup_finds (hc : Calm w) (hf : 1 < w.env.fuel) {vn : Vnode} {clientDir : ClientIno} (hv : w.vnode dir = some vn)
    (hdir : vn.client = some clientDir) (hk : uinoToChunkId vn.ino = c.chunk) (hp : c.chunk ∈ w.pool)
    (he : w.disk.entry clientDir name = some c) (hr : c.InRange) (hread : w.Readable c) (hi : w.disk.inode c = some i) :
    ∃ w', lookup dir name w = .ok (.ok (some ⟨w.vnext, c⟩)) w' ∧ Warm (w.withFound c i) w' ∧ w'.icache c = .live := by
  have hw₀ : Warm w (w.readIn c) := readIn_warm c
  have hcalm : Calm (w.readIn c) := hc.warm hw₀
  have hc₀ : Calm (w.readIn c).withVnode := hcalm
  have hclient : clientLookup clientDir name w = .ok (.ok (some c)) (w.readIn c) := by
    unfold clientLookup
    rw [bind_ok (ask_calm hc)]
    dsimp only
    rw [bind_ok (get_apply w), he]
    rfl
  have hi₀ : (w.readIn c).withVnode.disk.inode c = some i := by
    rw [← hi]
    exact congrFun (congrArg Disk.inode hw₀.disk) c
  have hl₀ : (w.readIn c).withVnode.icache c = .live := readIn_live hread
  obtain ⟨r, w₁, hr₁, rfl, hw₁⟩ := (setContData_stores hc₀.honest (inode?_of_live hl₀ hi₀) initCd).returns fun _ _ hh => by
    have := hh.2.1
    rw [hc₀] at this
    cases this
  have hc₁ : Calm w₁ := Calm.warm (w := (w.readIn c).withVnode.stored c initCd 4) hc₀ hw₁
  obtain ⟨w₂, hr₂, hw₂⟩ := (dget_reads (w := w₁) c).calm hc₁
  obtain ⟨w₃, hr₃, hw₃⟩ := (dget_reads (w := w₂) c).calm (hc₁.warm hw₂)
  have hw : Warm ((w.readIn c).withVnode.stored c initCd 4) w₃ := hw₁.trans (hw₂.trans hw₃)
  have hi₃ : w₃.disk.inode c = some (i.setFirst 4 initCd) := by
    rw [hw.disk]
    exact withFound_inode_same (w := w.readIn c) hi₀
  have hv₃ : w₃.vnode (w.readIn c).vnext = some ⟨0, zeroAttrs, 0, none⟩ := by
    rw [hw.vnode]
    exact if_pos rfl
  obtain ⟨w₄, hr₄, hw₄⟩ := startInode_calm ((hc₁.warm hw₂).warm hw₃) (by rw [hw.fuel]; exact hw₀.fuel ▸ hf) hr
    (by rw [hw.pool]; exact hw₀.pool ▸ hp) (hw.live hl₀) hi₃ (ClientInode.contData?_setFirst_four initCd_fits i) hv₃
  rw [ClientInode.attrs_setFirst, ClientInode.size_setFirst] at hw₄
  have hfound : Warm (w.withFound c i) w₄ :=
    (hw₀.withFound c i).trans (.trans (hw.setVnode (w.readIn c).vnext ⟨c.uino, i.attrs, s64 i.size, some c⟩) hw₄)
  refine ⟨w₄, ?_, hfound, hw₄.live (hw.live hl₀)⟩
  unfold lookup
  rw [bind_ok (vnodeAt_used hv), hdir]
  dsimp only
  rw [bind_ok (initDentry_calm hc), if_pos rfl, bind_ok (ask_calm hc)]
  dsimp only
  rw [bind_ok (get_apply w), hk, findChunk_of_mem hp]
  dsimp only
  rw [bind_ok hclient]
  refine (bind_ok (newInode_calm hcalm)).trans ((bind_ok hr₁).trans ?_)
  refine (bind_ok hr₂).trans ((bind_ok hr₃).trans ((bind_ok hr₄).trans ?_))
  rw [hw₀.vnext]
  rfl

end Found

end Chunkfs
