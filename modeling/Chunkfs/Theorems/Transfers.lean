import Chunkfs.Theorems.Locate

/-! What reads and writes that have returned have done, by where their positions lead. -/

namespace Chunkfs
open Exec Word

/-- The attributes of `i` have been copied up to the chunkfs inode `v`, and its size has been set. --/
structure CopiedFrom (w : World) (v : Nat) (i : ClientInode) (w' : World) : Prop extends SameDisk w w' where
  vnode : ∃ total, w'.vnode = fun x =>
    if x = v then (w.vnode v).map fun vn => { vn with attrs := i.attrs, size := total } else w.vnode x
  script : w'.env.script <:+ w.env.script
  env : w'.env = { w.env with script := w'.env.script }
  caches : CachesMore w w'

theorem CopiedFrom.quiet {w w' w'' : World} {v : Nat} {i : ClientInode} (h : CopiedFrom w v i w') (hq : Quiet w' w'') :
    CopiedFrom w v i w'' where
  toSameDisk := h.toSameDisk.trans hq.toSameDisk
  vnode := hq.vnode ▸ h.vnode
  script := hq.script.trans h.script
  env := by rw [hq.env, h.env]
  caches := h.caches.trans hq.caches

/-- The number and the client inode of a chunkfs inode stay. --/
theorem CopiedFrom.keeps {w w' : World} {v x : Nat} {i : ClientInode} {vn : Vnode} (h : CopiedFrom w v i w')
    (hv : w.vnode x = some vn) : ∃ vn', w'.vnode x = some vn' ∧ vn'.ino = vn.ino ∧ vn'.client = vn.client := by
  obtain ⟨total, hvnode⟩ := h.vnode
  rw [hvnode]
  dsimp only
  split
  · rename_i hx
    rw [← hx, hv]
    exact ⟨_, rfl, rfl, rfl⟩
  · exact ⟨vn, hv, rfl, rfl⟩

/-- The chunkfs inode with the attributes of its client inode, while its size is being added up. --/
def World.withAttrs (w : World) (v : Nat) (attrs : Attrs) : World :=
  { w with vnode := fun x => if x = v then (w.vnode v).map fun vn => { vn with attrs := attrs } else w.vnode x }

/-- What adds the size up, and what is set in the end. --/
theorem copyUpInode_walks {w w' : World} {v : Nat} {c : ClientIno} {r : Unit} (h : copyUpInode v c w = .ok r w') :
    ∃ i total u, w.inode? c = some i ∧ totalSize w.env.fuel v none 0 (w.withAttrs v i.attrs) = .ok total u ∧
      w' = { u with vnode := fun x => if x = v then (u.vnode v).map fun vn => { vn with size := total } else u.vnode x } := by
  unfold copyUpInode at h
  simp only [bind_eq_ok] at h
  obtain ⟨s, w₀, hget, h⟩ := h
  cases hget
  cases hi : w.inode? c with
  | none =>
    simp only [hi] at h
    cases h
  | some i =>
    simp only [hi, bind_eq_ok] at h
    obtain ⟨_, w₁, hattrs, s, w₂, hget, total, w₃, htotal, hsize⟩ := h
    cases hattrs
    cases hget
    cases hsize
    exact ⟨i, total, w₃, rfl, htotal, rfl⟩

theorem copyUpInode_ok {w w' : World} {v : Nat} {c : ClientIno} {r : Unit} (h : copyUpInode v c w = .ok r w') :
    ∃ i, w.inode? c = some i ∧ CopiedFrom w v i w' := by
  obtain ⟨i, total, u, hi, htotal, rfl⟩ := copyUpInode_walks h
  have hq := (quiet (totalSize_still _ v none 0)).of_ok htotal
  refine ⟨i, hi, ⟨hq.disk, hq.pool⟩, ⟨total, funext fun x => ?_⟩, hq.script, hq.env, hq.caches⟩
  dsimp only
  rw [hq.vnode]
  by_cases hx : x = v
  · simp only [World.withAttrs, hx, ↓reduceIte, Option.map_map]
    rfl
  · simp only [World.withAttrs, hx, ↓reduceIte]

theorem closeContFile_ok {w w' : World} {file f : File} {client : ClientFile} {cont : Continuation}
    (h : closeContFile file client cont w = .ok f w') : f = copyUpFile file client cont.cd.start ∧
      ∃ i, w.inode? client.inode = some i ∧ CopiedFrom w file.dentry.inode i w' := by
  unfold closeContFile putContinuation at h
  simp only [bind_eq_ok] at h
  obtain ⟨_, w₁, hcopy, _, w₂, ⟨_, w₃, hput, hfree⟩, h⟩ := h
  obtain ⟨i, hi, hw₁⟩ := copyUpInode_ok hcopy
  cases h
  exact ⟨rfl, i, hi, hw₁.quiet ((dput_ok hput).trans (kfreeCont_ok hfree)).quiet⟩

theorem CopiedFrom.of_warm {w w₁ w' : World} {v : Nat} {i : ClientInode} (hw : Warm w w₁) (h : CopiedFrom w₁ v i w') :
    CopiedFrom w v i w' where
  toSameDisk := hw.sameDisk.trans h.toSameDisk
  vnode := hw.vnode ▸ h.vnode
  script := h.script.trans hw.script
  env := by rw [h.env, hw.env]
  caches := hw.caches.trans h.caches

section Transfers
variable {w w' : World} {d : Dentry} {vn : Vnode} {p : Int} {file : File} {r : IoResult} {i : ClientInode}

/-- What a client reads of its inode. --/
def ClientInode.readAt (i : ClientInode) (n : Nat) (pos : Int) : Transfer :=
  if pos < 0 then ⟨Errno.einval.ret, [], pos⟩
  else ⟨(i.readData pos.toNat n).length, i.readData pos.toNat n, pos + (i.readData pos.toNat n).length⟩

theorem clientRead_ok (hh : Honest w) {client : ClientFile} {len : Nat} {pos : Int} {t : Transfer}
    (hi : w.inode? client.inode = some i) (h : clientRead client len pos w = .ok t w') :
    Warm w w' ∧ t = i.readAt (w.env.transfer len) pos := by
  unfold clientRead at h
  simp only [bind_eq_ok] at h
  obtain ⟨o, w₁, hask, h⟩ := h
  have hw := ask_ok hask
  obtain rfl := (ask_reads hh).eq_of_ok hask
  simp only [bind_eq_ok] at h
  obtain ⟨s, w₂, hget, h⟩ := h
  cases hget
  have ht : w₁.env.transfer len = w.env.transfer len := by
    rw [hw.env]
    rfl
  simp only [hw.inode? hi, ht] at h
  unfold ClientInode.readAt
  split at h
  · rename_i hneg
    cases h
    exact ⟨hw, (if_pos hneg).symm⟩
  · rename_i hneg
    cases h
    exact ⟨hw, (if_neg hneg).symm⟩

/-- What a client has stored, or that it has not. --/
theorem clientWrite_ok (hh : Honest w) {client : ClientFile} {data : List UInt8} {pos : Int} {t : Transfer}
    (hi : w.inode? client.inode = some i) (h : clientWrite client data pos w = .ok t w') :
    (Warm w w' ∧ ((∃ e : Errno, t = ⟨e.ret, [], pos⟩) ∨ data.take (w.env.transfer data.length) = [] ∧ t = ⟨0, [], pos⟩)) ∨
      ∃ (start : Nat) (stored : List UInt8), (start : Int) = writeStart client i pos ∧
        stored = data.take (w.env.transfer data.length) ∧ stored ≠ [] ∧ start + stored.length < 2 ^ 63 ∧
        Warm (w.wrote client.inode start stored) w' ∧ t = ⟨stored.length, [], start + stored.length⟩ := by
  unfold clientWrite at h
  simp only [bind_eq_ok] at h
  obtain ⟨o, w₁, hask, h⟩ := h
  have hw := ask_ok hask
  obtain rfl := (ask_reads hh).eq_of_ok hask
  simp only [bind_eq_ok] at h
  obtain ⟨s, w₂, hget, h⟩ := h
  cases hget
  have ht : w₁.env.transfer data.length = w.env.transfer data.length := by
    rw [hw.env]
    rfl
  simp only [hw.inode? hi, ht] at h
  have hs : (if client.flags &&& oAppend = 0 then pos else (i.size : Int)) = writeStart client i pos := rfl
  rw [hs] at h
  split at h
  · cases h
    exact Or.inl ⟨hw, Or.inl ⟨_, rfl⟩⟩
  · rename_i hneg
    obtain ⟨start, hstart⟩ := Int.eq_ofNat_of_zero_le (Int.not_lt.mp hneg)
    split at h
    · rename_i hnil
      cases h
      exact Or.inl ⟨hw, Or.inr ⟨hnil, rfl⟩⟩
    · rename_i hne
      split at h
      · cases h
        exact Or.inl ⟨hw, Or.inl ⟨_, rfl⟩⟩
      · rename_i hbig
        rw [hstart] at hbig h
        refine Or.inr ⟨start, _, hstart.symm, rfl, hne, by omega, ?_⟩
        obtain ⟨_, w₂, hset, h⟩ := bind_eq_ok.mp h
        cases hset
        obtain ⟨o, w₃, hask, h⟩ := bind_eq_ok.mp h
        have hh₁ : Honest w₁ := hh.warm hw
        have hhonest : Honest (w₁.stripped client.inode) := hh₁
        obtain rfl := (ask_reads hhonest).eq_of_ok hask
        have hw₃ : Warm (w₁.stripped client.inode) w₃ := ask_ok hask
        cases h
        refine ⟨(hw.wrote client.inode start _).trans ?_, rfl⟩
        rw [World.wrote_eq w₁ _ _ hne, ← hw₃.disk, show w₁.env.now = w₃.env.now by rw [hw₃.env]; rfl]
        exact hw₃.setDisk _

/-- A read that has returned found nothing to read from, or has read from the continuation that covers the position. --/
theorem read_ok (hh : Honest w) (hv : w.vnode d.inode = some vn) (hlive : w.icache d.client = .live)
    (hfile : file.dentry = d) {len : Nat} (h : read file len p w = .ok r w') :
    ((∀ k, ¬Locates w d vn.ino p none k) ∧ r.ret ≤ 0 ∧ r.buf = [] ∧ r.ppos = p ∧ r.file = file ∧ Warm w w') ∨
      ∃ k i, Locates w d vn.ino p none k ∧ w.disk.inode k.inode = some i ∧ CopiedFrom w d.inode i w' ∧
        r.file = copyUpFile file (openedAt k file.flags p).file k.cd.start ∧
        let t := i.readAt (w.env.transfer len) (copyDownFile p k.cd.start)
        r.ret = (if int32 t.ret = Errno.enodata.ret then 0 else int32 t.ret) ∧ r.buf = t.buf ∧ r.ppos = t.pos := by
  unfold read at h
  simp only [bind_eq_ok] at h
  obtain ⟨o, w₁, hopen, h⟩ := h
  obtain ⟨hw, hused⟩ := openContFile_ok hv hfile hopen
  cases o with
  | error e =>
    cases h
    refine Or.inl ⟨fun k hk => ?_, ?_, rfl, rfl, rfl, hw⟩
    · cases hk.opened hh hv hlive hfile hopen
    · dsimp only
      split
      · exact Int.le_refl 0
      · exact Int.le_of_lt e.ret_neg
  | ok o =>
    obtain ⟨k, hk, rfl, hklive⟩ := hused o rfl
    simp only [bind_eq_ok] at h
    obtain ⟨t, w₂, hread, f, w₃, hclose, h⟩ := h
    cases h
    obtain ⟨i, hi, -⟩ := Disk.inode_of_contData? hk.stored
    have hi₁ : w₁.inode? k.inode = some i := inode?_of_live hklive (hw.disk ▸ hi)
    obtain ⟨hw₂, rfl⟩ := clientRead_ok (hh.warm hw) hi₁ hread
    obtain ⟨rfl, i', hi', hcopied⟩ := closeContFile_ok hclose
    obtain rfl : i = i' := Option.some.inj ((hw₂.inode? hi₁).symm.trans hi')
    have ht : w₁.env.transfer len = w.env.transfer len := by
      rw [hw.env]
      rfl
    rw [ht]
    exact Or.inr ⟨k, i, hk, hi, hfile ▸ hcopied.of_warm (hw.trans hw₂), rfl, rfl, rfl, rfl⟩

/-- How a write into the inode `i` of the client file opened in `o` has turned out. --/
inductive Stored (w : World) (file : File) (data : List UInt8) (o : Opened) (i : ClientInode) (r : IoResult)
    (w' : World) : Prop
  | fails (e : Errno) (hret : r.ret = e.ret) (hppos : r.ppos = o.ppos) (hcopied : CopiedFrom w file.dentry.inode i w')
  | nothing (hstored : data.take (w.env.transfer data.length) = []) (hret : r.ret = 0) (hppos : r.ppos = o.ppos)
      (hcopied : CopiedFrom w file.dentry.inode i w')
  | stores (start : Nat) (stored : List UInt8) (hstart : (start : Int) = writeStart o.file i o.ppos)
      (hstored : stored = data.take (w.env.transfer data.length)) (hne : stored ≠ []) (hend : start + stored.length < 2 ^ 63)
      (hret : r.ret = stored.length) (hppos : r.ppos = start + stored.length)
      (hcopied : CopiedFrom (w.wrote o.file.inode start stored) file.dentry.inode (i.wrote w.env start stored) w')

theorem writeOpened_ok (hh : Honest w) {data : List UInt8} {o : Opened} (hi : w.inode? o.file.inode = some i)
    (h : writeOpened file data o w = .ok r w') :
    r.file = copyUpFile file o.file o.cont.cd.start ∧ Stored w file data o i r w' := by
  unfold writeOpened at h
  simp only [bind_eq_ok] at h
  obtain ⟨t, w₁, hwrite, f, w₂, hclose, h⟩ := h
  cases h
  obtain ⟨rfl, i', hi', hcopied⟩ := closeContFile_ok hclose
  refine ⟨rfl, ?_⟩
  rcases clientWrite_ok hh hi hwrite with
    ⟨hw, ⟨e, rfl⟩ | ⟨hnil, rfl⟩⟩ | ⟨start, stored, hstart, hstored, hne, hend, hw, rfl⟩
  · obtain rfl := Option.some.inj ((hw.inode? hi).symm.trans hi')
    exact .fails e rfl rfl (hcopied.of_warm hw)
  · obtain rfl := Option.some.inj ((hw.inode? hi).symm.trans hi')
    exact .nothing hnil rfl rfl (hcopied.of_warm hw)
  · obtain rfl := Option.some.inj ((hw.inode? (World.inode?_wrote hi start stored)).symm.trans hi')
    exact .stores start stored hstart hstored hne hend rfl rfl (hcopied.of_warm hw)

theorem Stored.of_warm {w₁ : World} {data : List UInt8} {o : Opened} (hw : Warm w w₁) (h : Stored w₁ file data o i r w') :
    Stored w file data o i r w' := by
  have ht : w₁.env.transfer data.length = w.env.transfer data.length := by
    rw [hw.env]
    rfl
  cases h with
  | fails e hret hppos hcopied => exact .fails e hret hppos (hcopied.of_warm hw)
  | nothing hstored hret hppos hcopied => exact .nothing (ht ▸ hstored) hret hppos (hcopied.of_warm hw)
  | stores start stored hstart hstored hne hend hret hppos hcopied =>
    rw [ht] at hstored
    rw [hw.env, ClientInode.wrote_script] at hcopied
    exact .stores start stored hstart hstored hne hend hret hppos (hcopied.of_warm (hw.wrote _ start stored))

/-- What a write that has returned has done. --/
inductive Written (w : World) (d : Dentry) (vn : Vnode) (p : Int) (file : File) (data : List UInt8) (r : IoResult)
    (w' : World) : Prop
  | fails (hret : r.ret < 0) (hfile : r.file = file) (hnone : ∀ k, ¬Locates w d vn.ino p none k)
      (hstuck : ¬CanGrow w d vn.ino) (hw : Warm w w')
  | found (k : Continuation) (i : ClientInode) (hk : Locates w d vn.ino p none k) (hi : w.disk.inode k.inode = some i)
      (hfile : r.file = copyUpFile file (openedAt k file.flags p).file k.cd.start)
      (hstored : Stored w file data (openedAt k file.flags p) i r w')
  | grown (t : Continuation) (c : ClientIno) (u : World) (k : Continuation) (w₁ : World) (i : ClientInode)
      (hnone : ∀ k, ¬Locates w d vn.ino p none k) (hgrew : Grew w d vn p (openedAt k oCreatRdwr p) w₁ t c u)
      (hinode : k.inode = c) (hstart : k.cd.start = afterStart t c) (hi : w₁.inode? c = some i)
      (hfile : r.file = copyUpFile file (openedAt k oCreatRdwr p).file k.cd.start)
      (hstored : Stored w₁ file data (openedAt k oCreatRdwr p) i r w')

theorem write_ok (hh : Honest w) (hv : w.vnode d.inode = some vn) (hlive : w.icache d.client = .live)
    (hfile : file.dentry = d) {data : List UInt8} (h : write file data p w = .ok r w') :
    Written w d vn p file data r w' := by
  unfold write at h
  simp only [bind_eq_ok] at h
  obtain ⟨o, w₁, hopen, h⟩ := h
  obtain ⟨hw, hused⟩ := openContFile_ok hv hfile hopen
  cases o with
  | ok o =>
    obtain ⟨k, hk, rfl, hklive⟩ := hused o rfl
    obtain ⟨i, hi, -⟩ := Disk.inode_of_contData? hk.stored
    have hi₁ : w₁.inode? k.inode = some i := inode?_of_live hklive (hw.disk ▸ hi)
    obtain ⟨hclosed, hstored⟩ := writeOpened_ok (hh.warm hw) hi₁ h
    exact .found k i hk hi hclosed (hstored.of_warm hw)
  | error e =>
    have hnone (k : Continuation) : ¬Locates w d vn.ino p none k := fun hk => by
      cases hk.opened hh hv hlive hfile hopen
    dsimp only at h
    split at h
    · simp only [bind_eq_ok] at h
      obtain ⟨o, w₂, hcreate, h⟩ := h
      cases o with
      | error e =>
        cases h
        obtain ⟨hw₂, hstuck⟩ := createContinuation_error (hw.vnode ▸ hv) hfile hcreate
        exact .fails e.ret_neg rfl hnone (fun hg => hstuck (hh.warm hw) (hw.live hlive) (hg.warm hw)) (hw.trans hw₂)
      | ok o =>
        obtain ⟨t, c, u, hgrew⟩ := createContinuation_grew (hh.warm hw) (hw.vnode ▸ hv) hfile hcreate
        obtain ⟨k, rfl, hinode, hstart⟩ := hgrew.opens
        obtain ⟨cd, hcd, -⟩ := hgrew.result
        obtain ⟨i, hi⟩ := inode?_of_contData? hcd
        obtain ⟨hclosed, hstored⟩ := writeOpened_ok (hgrew.honest (hh.warm hw)) (hinode ▸ hi) h
        exact .grown t c u k w₂ i hnone (hgrew.of_warm hw) hinode hstart hi hclosed hstored
    · rename_i hne
      cases h
      refine .fails e.ret_neg rfl hnone (fun ⟨t, c, u, ht, ho⟩ => hne ?_) hw
      exact Except.error.inj (ht.unopened hh hv hlive hnone hfile hopen)

end Transfers

/-! ### A file in use -/

/-- The file of `d` is in use: its inodes are in memory, and the client file systems do not fail. --/
structure InUse (w : World) (d : Dentry) : Prop where
  honest : Honest w
  vnode : ∃ vn, w.vnode d.inode = some vn
  live : w.icache d.client = .live

section InUse
variable {w w' : World} {d : Dentry} {vn : Vnode} {p : Int} {file : File} {r : IoResult}

theorem InUse.warm (h : InUse w d) (hw : Warm w w') : InUse w' d :=
  ⟨h.honest.warm hw, hw.vnode ▸ h.vnode, hw.live h.live⟩

theorem InUse.wrote (h : InUse w d) (c : ClientIno) (pos : Nat) (stored : List UInt8) : InUse (w.wrote c pos stored) d :=
  ⟨h.honest, h.vnode, h.live⟩

theorem InUse.copiedFrom {v : Nat} {i : ClientInode} (h : InUse w d) (hc : CopiedFrom w v i w') : InUse w' d := by
  refine ⟨fun e he => h.honest e (hc.script.subset he), ?_, hc.caches.live h.live⟩
  obtain ⟨vn, hv⟩ := h.vnode
  obtain ⟨vn', hv', -⟩ := hc.keeps hv
  exact ⟨vn', hv'⟩

theorem InUse.stored {data : List UInt8} {o : Opened} {i : ClientInode} (h : InUse w d) (hs : Stored w file data o i r w') :
    InUse w' d := by
  cases hs with
  | fails e hret hppos hcopied => exact h.copiedFrom hcopied
  | nothing hstored hret hppos hcopied => exact h.copiedFrom hcopied
  | stores start stored hstart hstored hne hend hret hppos hcopied =>
    exact (h.wrote o.file.inode start stored).copiedFrom hcopied

theorem InUse.grew {o : Opened} {t : Continuation} {c : ClientIno} {u : World} (h : InUse w d)
    (hg : Grew w d vn p o w' t c u) : InUse w' d := by
  obtain ⟨w₁, hw₁, ho⟩ := hg.opened
  have hu : InUse u d :=
    ⟨openPath_honest (h.honest.warm hw₁) ho, openPath_vnode ho ▸ (h.warm hw₁).vnode, openPath_live ho (h.warm hw₁).live⟩
  have hlinked : InUse ((u.stored c (nextCd t) 4).stored t.inode (beforeCd t c) 4) d := ⟨hu.honest, hu.vnode, hu.live⟩
  exact hlinked.warm hg.warm

theorem InUse.read (h : InUse w d) (hfile : file.dentry = d) {len : Nat} (hr : read file len p w = .ok r w') :
    InUse w' d := by
  obtain ⟨vn, hv⟩ := h.vnode
  rcases read_ok h.honest hv h.live hfile hr with ⟨-, -, -, -, -, hw⟩ | ⟨k, i, -, -, hcopied, -⟩
  · exact h.warm hw
  · exact h.copiedFrom hcopied

theorem InUse.write (h : InUse w d) (hfile : file.dentry = d) {data : List UInt8} (hr : write file data p w = .ok r w') :
    InUse w' d := by
  obtain ⟨vn, hv⟩ := h.vnode
  cases write_ok h.honest hv h.live hfile hr with
  | fails _ _ _ _ hw => exact h.warm hw
  | found k i hk hi hf hstored => exact h.stored hstored
  | grown t c u k w₁ i hnone hgrew hinode hstart hi hf hstored => exact (h.grew hgrew).stored hstored

end InUse

end Chunkfs
