import Chunkfs.Symlink
import Chunkfs.Theorems.Failures
import Chunkfs.Theorems.System
import Chunkfs.Theorems.Truncate

/-! Requests of userland on the files of a pool. Whatever a request does to its own object, it leaves the client inodes
    and the chunkfs inode of every other file as they were (`Untouched`), and so does a run. -/

namespace Chunkfs
open Exec Word

/-! ### What a request leaves -/

/-- The client inodes of the file and its chunkfs inode are as they were. --/
structure Untouched (w w' : World) (d : Dentry) (cs : List Continuation) : Prop where
  inode : ∀ c ∈ cs, w'.disk.inode c.inode = w.disk.inode c.inode
  vnode : w'.vnode d.inode = w.vnode d.inode

namespace Untouched
variable {w w' w'' : World} {d d' : Dentry} {cs cs' : List Continuation} {c : ClientIno}

theorem refl (w : World) (d : Dentry) (cs : List Continuation) : Untouched w w d cs := ⟨fun _ _ => rfl, rfl⟩

theorem trans (h : Untouched w w' d cs) (h' : Untouched w' w'' d cs) : Untouched w w'' d cs :=
  ⟨fun c hc => (h'.inode c hc).trans (h.inode c hc), h'.vnode.trans h.vnode⟩

theorem of_warm (hw : Warm w w') (d : Dentry) (cs : List Continuation) : Untouched w w' d cs :=
  ⟨fun _ _ => by rw [hw.disk], by rw [hw.vnode]⟩

theorem modify (hc : c ∉ cs.map (·.inode)) (g : ClientInode → ClientInode) :
    Untouched w (w.setDisk (w.disk.modify c g)) d cs where
  inode x hx := Disk.inode_modify_of_ne fun he => hc (List.mem_map.mpr ⟨x, hx, he⟩)
  vnode := rfl

theorem copiedUp (hd : d.inode ≠ d'.inode) (vn : Vnode) (i : ClientInode) : Untouched w (w.copiedUp d' vn i cs') d cs :=
  ⟨fun _ _ => rfl, by simp only [World.copiedUp, World.setVnode, hd, ↓reduceIte]⟩

end Untouched

/-- The pool and its directories are as they were, and a continuation file that is new is in a directory. --/
structure Housed (w w' : World) : Prop where
  pool : w'.pool = w.pool
  dir : w'.disk.dir = w.disk.dir
  path : ∀ k f i c, w'.disk.path (contPath k f i) = some c →
    w.disk.path (contPath k f i) = some c ∨ (w.disk.dir (contDir k f)).isSome = true

namespace Housed
variable {w w' w'' u : World} {path : List Char} {mode : Nat} {c : ClientIno}

theorem of_kept (h : Kept w w') : Housed w w' := ⟨h.pool, h.dir, fun _ _ _ _ hc => Or.inl (by rwa [← h.path])⟩

theorem trans (h : Housed w w') (h' : Housed w' w'') : Housed w w'' where
  pool := h'.pool.trans h.pool
  dir := h'.dir.trans h.dir
  path k f i c hc := by
    rcases h'.path k f i c hc with hc | hdir
    · exact h.path k f i c hc
    · exact Or.inr (by rwa [← h.dir])

theorem openPath (ho : w.openPath path mode = .ok (c, u)) : Housed w u := by
  rcases openPath_cases ho with ⟨-, rfl⟩ | ⟨-, hdir, -, -, rfl⟩
  · exact of_kept (readIn_warm c).kept
  · refine ⟨rfl, rfl, fun k f i x hx => ?_⟩
    by_cases heq : contPath k f i = path
    · right
      rw [← dirname_contPath k f i, heq, hdir]
      rfl
    · left
      exact (if_neg heq).symm.trans hx

end Housed

/-- After a request on `d₀` the files are tidy, and the others are untouched. --/
structure Moves (w : World) (root : Dentry) (files : List Dentry) (ch : Dentry → List Continuation) (d₀ : Dentry)
    (w' : World) (files' : List Dentry) (ch' : Dentry → List Continuation) : Prop where
  tidy : Tidy w' root files' ch'
  ground : Housed w w'
  others : ∀ d ∈ files, d ≠ d₀ → ch' d = ch d ∧ Untouched w w' d (ch d)

section Moves
variable {w w₁ w' : World} {root d d₀ : Dentry} {files files' : List Dentry} {ch ch₁ ch' : Dentry → List Continuation}
  {c : ClientIno} {vn : Vnode} {i : ClientInode}

theorem Moves.trans (h : Moves w root files ch d₀ w₁ files ch₁) (h' : Moves w₁ root files ch₁ d₀ w' files' ch') :
    Moves w root files ch d₀ w' files' ch' where
  tidy := h'.tidy
  ground := h.ground.trans h'.ground
  others d hd hne := by
    obtain ⟨he, hu⟩ := h.others d hd hne
    obtain ⟨he', hu'⟩ := h'.others d hd hne
    rw [he] at he' hu'
    exact ⟨he', hu.trans hu'⟩

theorem Tidy.warmed (h : Tidy w root files ch) (hw : Warm w w') (d₀ : Dentry) : Moves w root files ch d₀ w' files ch :=
  ⟨h.kept hw.kept, .of_kept hw.kept, fun d _ _ => ⟨rfl, .of_warm hw d (ch d)⟩⟩

/-- A change of a client inode of `d₀` that keeps its continuation data. --/
theorem Tidy.changes (h : Tidy w root files ch) (hd : d₀ ∈ files) (hc : c ∈ (ch d₀).map (·.inode))
    {g : ClientInode → ClientInode} (hg : ∀ i, (g i).contData? = i.contData?) :
    Moves w root files ch d₀ (w.setDisk (w.disk.modify c g)) files ch where
  tidy := h.kept (.modify w c hg)
  ground := .of_kept (.modify w c hg)
  others d hd' hne := ⟨rfl, .modify (fun hm => hne (h.disjoint d hd' d₀ hd c hm hc)) g⟩

theorem Tidy.copiesUp (h : Tidy w root files ch) (hd : d₀ ∈ files) (hv : w.vnode d₀.inode = some vn) (i : ClientInode)
    (cs : List Continuation) : Moves w root files ch d₀ (w.copiedUp d₀ vn i cs) files ch where
  tidy := h.kept (.copiedUp hv i)
  ground := .of_kept (.copiedUp hv i)
  others d hd' hne := ⟨rfl, .copiedUp (fun he => hne (h.address d hd' d₀ hd he)) vn i⟩

/-- The shape most requests have: a client inode of `d₀` is changed and copied up. --/
theorem Tidy.changesUp (h : Tidy w root files ch) (hd : d₀ ∈ files) (hc : c ∈ (ch d₀).map (·.inode))
    {g : ClientInode → ClientInode} (hg : ∀ i, (g i).contData? = i.contData?) (hv : w.vnode d₀.inode = some vn)
    (hw : Warm ((w.setDisk (w.disk.modify c g)).copiedUp d₀ vn i (ch d₀)) w') :
    Moves w root files ch d₀ w' files ch := by
  have h₁ := h.changes hd hc hg
  have hv₁ : (w.setDisk (w.disk.modify c g)).vnode d₀.inode = some vn := hv
  have h₂ := h₁.tidy.copiesUp hd hv₁ i (ch d₀)
  exact (h₁.trans h₂).trans (h₂.tidy.warmed hw d₀)

/-- Growing `d₀`: the new inode is in no chain, and the tail in none but that of `d₀`. --/
theorem Tidy.grows (h : Tidy w root files ch) (hd : d₀ ∈ files) {init : List Continuation} {t : Continuation} {u : World}
    (hch : ch d₀ = init ++ [t]) (ho : w.openPath (nextPath t) contMode = .ok (c, u)) :
    Moves w root files ch d₀ (growStage u t c 4 4) files
      (Function.update ch d₀ (init ++ [relinked t c, appended t c])) where
  tidy := h.grown hd hch ho
  ground := (Housed.openPath ho).trans ⟨rfl, rfl, fun _ _ _ _ hc => Or.inl hc⟩
  others d hd' hne := by
    have ht : (ch d₀).getLast? = some t := by rw [hch]; exact List.getLast?_concat
    obtain ⟨-, hfree, hu⟩ := h.opens_new hd ht ho
    have hmem : t.inode ∈ (ch d₀).map (·.inode) := List.mem_map_of_mem (List.mem_of_getLast? ht)
    have htail : t.inode ∉ (ch d).map (·.inode) := fun hm => hne (h.disjoint d hd' d₀ hd _ hm hmem)
    have hnew : c ∉ (ch d).map (·.inode) := fun hm => by
      obtain ⟨i, hi⟩ := h.allocated hd' hm
      rw [hfree] at hi
      cases hi
    have hopen : Untouched w u d (ch d) := by
      refine ⟨fun x hx => ?_, by rw [openPath_vnode ho]⟩
      obtain ⟨i, hi⟩ := h.allocated hd' (List.mem_map_of_mem hx)
      rw [hi]
      exact openPath_inode ho hi
    exact ⟨Function.update_of_ne hne _ _, (hopen.trans (.modify hnew _)).trans (.modify htail _)⟩

end Moves

/-! ### The requests -/

section Requests
variable {w : World} {root d : Dentry} {files : List Dentry} {ch : Dentry → List Continuation} {file : File} {p : Int}

/-- What a read leaves: it has only read, or it has copied up. --/
theorem read_leaves {cs : List Continuation} (h : Chain w d cs) (hc : Calm w) (hf : cs.length < w.env.fuel)
    (hfile : file.dentry = d) (len : Nat) :
    ∃ r w', read file len p w = .ok r w' ∧
      (Warm w w' ∨ ∃ vn i, w.vnode d.inode = some vn ∧ Warm (w.copiedUp d vn i cs) w') := by
  cases hfind : cs.find? (·.cd.covers p) with
  | none =>
    obtain ⟨w', hr, hw⟩ := read_past h.walkable hc hf hfile hfind len
    exact ⟨_, w', hr, Or.inl hw⟩
  | some c =>
    obtain ⟨vn, hv, -⟩ := h.head.vnode
    have hmem := List.mem_of_find?_eq_some hfind
    obtain ⟨i, hi, -⟩ := (h.elem c hmem).allocated
    obtain ⟨w₁, hr₁, hw₁⟩ := ((openContFile_finds hc.honest hfile
      (getContAtOffset_finds (h.walkable.follows hc.honest) hf hfind)).reads).calm hc
    have hi₁ : w₁.inode? (openedAt c file.flags p).file.inode = some i :=
      hw₁.inode? (inode?_of_live (h.live c hmem) hi)
    obtain ⟨t, hr₂, -⟩ := clientRead_calm (hc.warm hw₁) hi₁ len (openedAt c file.flags p).ppos
    obtain ⟨w₂, hr₃, hw₂⟩ := closeContFile_calm (h.warm hw₁) (hc.warm hw₁) (by rw [hw₁.fuel]; exact hf)
      (by rw [hw₁.vnode]; exact hv) (openedAt c file.flags p).file hi₁ hfile c
    have hrun : read file len p w = .ok ⟨if int32 t.ret = Errno.enodata.ret then 0 else int32 t.ret, t.buf, t.pos,
        copyUpFile file (openedAt c file.flags p).file c.cd.start⟩ w₂ := by
      unfold read
      rw [bind_ok hr₁]
      simp only
      rw [bind_ok hr₂]
      exact bind_ok hr₃
    exact ⟨_, w₂, hrun, Or.inr ⟨vn, i, hv, (hw₁.copiedUp h.live d vn i).trans hw₂⟩⟩

/-- `chunkfs_open` finds the head and copies up. --/
theorem openFs_calm {cs : List Continuation} (h : FileChain w d cs) (hc : Calm w) (hf : cs.length < w.env.fuel)
    (hfile : file.dentry = d) :
    ∃ r w' vn i, openFs file w = .ok (.ok r) w' ∧ w.vnode d.inode = some vn ∧ Warm (w.copiedUp d vn i cs) w' := by
  obtain ⟨vn, hv, -⟩ := h.head.vnode
  obtain ⟨c, rest, hcs, -⟩ := h.first
  have hfind : cs.find? (·.cd.covers 0) = some c := by
    have := h.find_covers (p := 0) (by decide)
    rw [Nat.zero_div, hcs] at this
    rw [hcs]
    exact this
  have hmem := List.mem_of_find?_eq_some hfind
  obtain ⟨i, hi, -⟩ := (h.elem c hmem).allocated
  obtain ⟨w₁, hr₁, hw₁⟩ := ((openContFile_finds hc.honest hfile
    (getContAtOffset_finds (h.walkable.follows hc.honest) hf hfind)).reads).calm hc
  have hi₁ : w₁.inode? (openedAt c file.flags 0).file.inode = some i :=
    hw₁.inode? (inode?_of_live (h.live c hmem) hi)
  obtain ⟨w₂, hr₂, hw₂⟩ := closeContFile_calm (h.toChain.warm hw₁) (hc.warm hw₁) (by rw [hw₁.fuel]; exact hf)
    (by rw [hw₁.vnode]; exact hv) (openedAt c file.flags 0).file hi₁ hfile c
  have hrun : openFs file w = .ok (.ok (copyUpFile file (openedAt c file.flags 0).file c.cd.start)) w₂ := by
    unfold openFs
    rw [bind_ok hr₁]
    exact bind_ok hr₂
  exact ⟨_, w₂, vn, i, hrun, hv, (hw₁.copiedUp h.live d vn i).trans hw₂⟩

/-- What `chunkfs_setattr` makes of the head client inode. --/
def ClientInode.setattrBy (own : Bool) (attr : Iattr) (now : Nat) (i : ClientInode) : ClientInode :=
  if own then i.setattr attr now else { i with attrs := i.attrs.setattrCopy attr }

theorem ClientInode.contData?_setattrBy (own : Bool) (attr : Iattr) (now : Nat) (i : ClientInode) :
    (i.setattrBy own attr now).contData? = i.contData? := by
  cases own
  · rfl
  · exact contData?_setattr i attr now

/-- The head client inode is changed and copied up, whether or not the client has a `setattr` of its own. --/
theorem setattr_changes {cs : List Continuation} (h : Chain w d cs) (hc : Calm w) (hf : cs.length < w.env.fuel)
    (own : Bool) (attr : Iattr) :
    ∃ w' vn i, setattr own d attr w = .ok (.ok ()) w' ∧ w.vnode d.inode = some vn ∧
      Warm ((w.setDisk (w.disk.modify d.client (·.setattrBy own attr w.env.now))).copiedUp d vn i cs) w' := by
  obtain ⟨vn, hv, hclient, -⟩ := h.head.vnode
  cases own with
  | true =>
    obtain ⟨w', i, hr, hw⟩ := setattr_calm h hc hf hv attr
    exact ⟨w', vn, i, hr, hv, hw⟩
  | false =>
    obtain ⟨x, rest, rfl, hx⟩ := h.first
    obtain ⟨i, hi, -⟩ := (h.elem x List.mem_cons_self).allocated
    rw [hx] at hi
    have hi' : w.inode? d.client = some i := inode?_of_live h.head.live hi
    have hgross : setattrGross d.client attr w =
        .ok none (w.setDisk (w.disk.modify d.client (·.setattrBy false attr w.env.now))) := by
      unfold setattrGross
      rw [bind_ok (ask_calm hc)]
      exact bind_ok (ask_calm hc)
    have hc₁ : Calm (w.setDisk (w.disk.modify d.client (·.setattrBy false attr w.env.now))) := hc
    obtain ⟨w', hr, hw⟩ := copyUpInode_calm
      (h.kept (.modify w d.client (ClientInode.contData?_setattrBy false attr w.env.now))) hc₁ hf hv
      (World.inode?_setDisk_modify _ hi')
    refine ⟨w', vn, _, ?_, hv, hw⟩
    unfold setattr
    rw [bind_ok (vnodeAt_used hv), hclient]
    exact (congrFun (if_neg (by decide)) w).trans ((bind_ok hgross).trans (bind_ok hr))

theorem writeInode_calm (hc : Calm w) {vn : Vnode} (hv : w.vnode d.inode = some vn) (hclient : vn.client = some d.client) :
    writeInode d.inode w =
      .ok (.ok ()) (w.setDisk (w.disk.modify d.client fun i => { i with attrs := vn.attrs })) := by
  have hdown : copyDownInode d.inode d.client w =
      .ok () (w.setDisk (w.disk.modify d.client fun i => { i with attrs := vn.attrs })) := by
    unfold copyDownInode
    rw [bind_ok (vnodeAt_used hv)]
    rfl
  have hc₁ : Calm (w.setDisk (w.disk.modify d.client fun i => { i with attrs := vn.attrs })) := hc
  unfold writeInode
  rw [bind_ok (vnodeAt_used hv), hclient]
  exact (bind_ok hdown).trans (bind_ok (ask_calm hc₁))

theorem readlink_calm (hc : Calm w) {vn : Vnode} (hv : w.vnode d.inode = some vn) (hclient : vn.client = some d.client)
    {i : ClientInode} (hi : w.inode? d.client = some i) (buflen : Nat) :
    readlink d buflen w = .ok (.ok (((i.readData 0 i.size).takeWhile (· ≠ 0)).take buflen)) w := by
  have hclientRead : clientReadlink d.client buflen w =
      .ok (.ok (((i.readData 0 i.size).takeWhile (· ≠ 0)).take buflen)) w := by
    unfold clientReadlink
    rw [bind_ok (ask_calm hc)]
    simp only [bind_ok (get_apply w), hi]
    rfl
  unfold readlink
  rw [bind_ok (vnodeAt_used hv), hclient]
  exact hclientRead

section Write
variable {c : ClientIno} {u : World} {t x : Continuation} {init : List Continuation}

theorem Tidy.length_lt_fuel (h : Tidy w root files ch) (he : Obliging w.env) (hd : d ∈ files) :
    (ch d).length + 1 < w.env.fuel :=
  Nat.lt_of_le_of_lt (Nat.succ_le_succ (h.chain _ hd).length_le_fifteen) he.fuel

/-- A write at a position the file has goes to one of its client inodes. --/
theorem Tidy.write_within (h : Tidy w root files ch) (he : Obliging w.env) (hd : file.dentry ∈ files)
    (hfind : (ch file.dentry).find? (·.cd.covers p) = some x) (data : List UInt8) :
    ∃ r w', Chunkfs.write file data p w = .ok r w' ∧ Moves w root files ch file.dentry w' files ch := by
  have hf := h.chain _ hd
  have hfuel := Nat.lt_of_succ_lt (h.length_lt_fuel he hd)
  have hc : Calm w := he.script
  have hmem := List.mem_of_find?_eq_some hfind
  obtain ⟨w₁, hw₁, hr₁⟩ := write_opens hf.walkable hc hfuel rfl hfind data
  obtain ⟨r, w', vn, i, start, stored, -, hr, hv, hw⟩ := writeOpened_warm (hf.toChain.warm hw₁) (hc.warm hw₁)
    (by rwa [hw₁.fuel]) rfl (o := openedAt x file.flags p) (List.mem_map_of_mem hmem) data
  have h₁ := h.warmed hw₁ file.dentry
  exact ⟨r, w', hr₁.trans hr, h₁.trans (h₁.tidy.changesUp hd (List.mem_map_of_mem hmem)
    (fun i => ClientInode.contData?_wrote i w₁.env start stored) hv hw)⟩

/-- A write at a position behind the file goes to a new client inode, where one can be made. --/
theorem Tidy.write_grown (h : Tidy w root files ch) (he : Obliging w.env) (hd : file.dentry ∈ files)
    (hfind : (ch file.dentry).find? (·.cd.covers p) = none) (hinit : ch file.dentry = init ++ [t])
    (ho : w.openPath (nextPath t) contMode = .ok (c, u)) (data : List UInt8) :
    ∃ r w', Chunkfs.write file data p w = .ok r w' ∧ Moves w root files ch file.dentry w' files
      (Function.update ch file.dentry (init ++ [relinked t c, appended t c])) := by
  have hf := h.chain _ hd
  have hfuel := h.length_lt_fuel he hd
  have hc : Calm w := he.script
  obtain ⟨hcan, -, -⟩ := h.opens_new hd (by rw [hinit, List.getLast?_concat]) ho
  rw [hinit] at hf hfind hcan hfuel
  obtain ⟨w₁, hw₁, henv, hr₁⟩ := write_appends hf.walkable hc (Nat.lt_of_succ_lt hfuel) rfl hfind ho hcan data
  have h₁ := h.grows hd hinit ho
  have h₂ := h₁.trans (h₁.tidy.warmed hw₁ file.dentry)
  have hch := Function.update_self file.dentry (init ++ [relinked t c, appended t c]) ch
  have hmem : (appended t c).inode ∈ (init ++ [relinked t c, appended t c]).map (·.inode) :=
    List.mem_map_of_mem (by simp)
  obtain ⟨r, w', vn, i, start, stored, -, hr, hv, hw⟩ := writeOpened_warm
    (hch ▸ (h₂.tidy.chain _ hd).toChain) (by rw [Calm, henv]; exact hc) (by rw [henv]; simpa using hfuel) rfl
    (o := openedAt (appended t c) oCreatRdwr p) hmem data
  exact ⟨r, w', hr₁.trans hr, h₂.trans (h₂.tidy.changesUp hd (by rw [hch]; exact hmem)
    (fun i => ClientInode.contData?_wrote i w₁.env start stored) hv (by rw [hch]; exact hw))⟩

/-- A write goes to one client inode of the file, which may be a new one, or fails and stores nothing. --/
theorem Tidy.write_moves (h : Tidy w root files ch) (he : Obliging w.env) (hd : file.dentry ∈ files) (data : List UInt8)
    (p : Int) : ∃ r w' ch', Chunkfs.write file data p w = .ok r w' ∧ Moves w root files ch file.dentry w' files ch' := by
  have hf := h.chain _ hd
  cases hfind : (ch file.dentry).find? (·.cd.covers p) with
  | some x =>
    obtain ⟨r, w', hr, hm⟩ := h.write_within he hd hfind data
    exact ⟨r, w', ch, hr, hm⟩
  | none =>
    obtain ⟨t, ht⟩ : ∃ t, (ch file.dentry).getLast? = some t := Option.isSome_iff_exists.mp (by simp [hf.ne_nil])
    cases ho : w.openPath (nextPath t) contMode with
    | error e =>
      obtain ⟨w', hr, hw⟩ := write_fails hf.toChain he.script (Nat.lt_of_succ_lt (h.length_lt_fuel he hd)) rfl hfind ht
        ho data
      exact ⟨_, w', ch, hr, h.warmed hw file.dentry⟩
    | ok cu =>
      obtain ⟨r, w', hr, hm⟩ := h.write_grown he hd hfind (List.dropLast_append_getLast? t ht).symm ho data
      exact ⟨r, w', _, hr, hm⟩

end Write

/-- The world with a new object of chunkfs, before its directory is copied up. --/
def World.withMade (w : World) (dir : ClientIno) (name : List Char) (o : NewObject) (links : Nat) (c : ClientIno)
    (vn : Vnode) : World :=
  ((w.withVnode.withObject dir name o links c).stored c initCd 4).setVnode w.vnext vn

/-- Where the world of a new object differs: the directory is touched and copied up, and the object has its inodes. --/
theorem makeObject_world {dir : Dentry} {cs : List Continuation} (h : Chain w dir cs) (hs : Sound w) (hfresh : Fresh w)
    (hc : Calm w) (hf : cs.length < w.env.fuel) (hf' : 1 < w.env.fuel) (name : List Char) (o : NewObject) (links : Nat) :
    Meets (makeObject dir.inode name o links) w (fun r w' =>
      (∃ e, r = .error e ∧ w' = { w with vnext := w.vnext + 1 }) ∨
        ∃ c vn vd i, w.disk.inode c = none ∧ r = .ok ⟨w.vnext, c⟩ ∧ w.vnode dir.inode = some vd ∧
          Kept w (w.withMade dir.client name o links c vn) ∧
          Warm ((w.withMade dir.client name o links c vn).copiedUp dir vd i cs) w') w.env.Stops := by
  obtain ⟨vd, hvd, hdc, hdk⟩ := h.head.vnode
  have hc₁ : Calm w.withVnode := hc
  unfold makeObject
  refine meets_bind_ok (vnodeAt_used hvd) ?_
  rw [hdc]
  refine meets_bind_ok (newInode_calm hc) ((copyDownNd_meets w.withVnode o.nd).bind ?_)
  rintro _ _ rfl
  rcases clientMake_calm hc₁ dir.client name o links with ⟨e, he⟩ | ⟨hfree, hmake⟩
  · refine meets_bind_ok he ((iput_meets hfresh).bind ?_)
    rintro _ _ rfl
    exact Or.inl ⟨e, rfl, rfl⟩
  · generalize hceq : (⟨dir.client.chunk, w.withVnode.env.ialloc dir.client.chunk⟩ : ClientIno) = c at hfree hmake
    have hk₂ : Kept w (w.withVnode.withObject dir.client name o links c) :=
      (Kept.withVnode hfresh).trans (.withObject hfree _ _ _ _)
    have hchunk : c.chunk = dir.client.chunk := by rw [← hceq]
    have hpool : c.chunk ∈ w.pool := by
      obtain ⟨x, rest, hx, hxd⟩ := h.first
      rw [hchunk, ← hxd]
      exact (h.elem x (by rw [hx]; exact List.mem_cons_self)).pool
    have hino : c.ino < 2 ^ 28 := by
      rw [← hceq]
      exact hs.ialloc _
    have hi₂ : (w.withVnode.withObject dir.client name o links c).disk.inode c = some (o.inode w.env) := if_pos rfl
    obtain ⟨w₁, w₃, hinit, hstart, hw₃⟩ := startNew (w := w.withVnode.withObject dir.client name o links c) (v := w.vnext)
      hc hf' ⟨(hs.pool _ hpool).1, (hs.pool _ hpool).2, hino⟩ hpool (if_pos rfl) hi₂ (if_pos rfl)
    -- The chain of the directory is still there, so it is copied up.
    obtain ⟨vn, hvn⟩ : ∃ vn : Vnode, vn = ⟨c.uino, (o.inode w.env).attrs, s64 (o.inode w.env).size, some c⟩ := ⟨_, rfl⟩
    rw [← hvn] at hw₃
    have hk₃ : Kept w (w.withMade dir.client name o links c vn) :=
      (hk₂.stored_new hfree initCd 4).setVnode_new (hfresh _ (Nat.le_refl _)) (Nat.lt_succ_self _) vn
    have hd := h.kept hk₃
    have hcalm : Calm (w.withMade dir.client name o links c vn) := hc
    have hne : dir.inode ≠ w.vnext := fun he => by
      rw [he, hfresh _ (Nat.le_refl _)] at hvd
      cases hvd
    have hv₃ : w₃.vnode dir.inode = some vd := by
      rw [hw₃.vnode]
      exact (if_neg hne).trans ((if_neg hne).trans hvd)
    obtain ⟨x, rest, hx, hxd⟩ := hd.first
    obtain ⟨i, hi, -⟩ := (hd.elem x (by rw [hx]; exact List.mem_cons_self)).allocated
    rw [hxd] at hi
    obtain ⟨w₄, hr₄, hw₄⟩ := copyUpInode_calm (hd.warm hw₃) (hcalm.warm hw₃) (by rw [hw₃.fuel]; exact hf) hv₃
      (hw₃.inode? (inode?_of_live hd.head.live hi))
    refine meets_bind_ok hmake (meets_bind_ok hinit ?_)
    rw [hdk, ← hchunk]
    exact meets_bind_ok hstart (meets_bind_ok hr₄
      (Or.inr ⟨c, vn, vd, i, hfree, rfl, hvd, hk₃, (Warm.copiedUp hw₃ hd.live dir vd i).trans hw₄⟩))

/-- Making an object touches its directory and no other file. --/
theorem Tidy.make_moves {dir : Dentry} (h : Tidy w root files ch) (he : Obliging w.env) (hdir : dir ∈ root :: files)
    (name : List Char) (o : NewObject) (links : Nat) :
    Meets (makeObject dir.inode name o links) w (fun r w' =>
      (∃ e, r = .error e) ∧ Moves w root files ch dir w' files ch ∨
        ∃ d, r = .ok d ∧ d ∉ files ∧ d.client.chunk = dir.client.chunk ∧
          Moves w root files ch dir w' (d :: files) (Function.update ch d [headOf d])) w.env.Stops := by
  obtain ⟨cs, hcs, hlen⟩ := h.chain_of_mem hdir
  have hfuel := he.fuel
  have hf : cs.length < w.env.fuel := Nat.lt_of_le_of_lt hlen (Nat.lt_of_succ_lt hfuel)
  have hf' : 1 < w.env.fuel := Nat.lt_of_le_of_lt (by decide) hfuel
  refine (makeObject_meets hcs h.sound h.fresh he.script hf hf' name o links).run.mono ?_ fun _ _ hs => hs
  rintro r w' ⟨hr, hk, hmade⟩
  rcases (makeObject_world hcs h.sound h.fresh he.script hf hf' name o links).ok hr with
    ⟨e, rfl, rfl⟩ | ⟨c, vn, vd, i, hfree, rfl, -, -, hw⟩
  · exact Or.inl ⟨⟨e, rfl⟩, h.kept hk, .of_kept hk, fun d _ _ => ⟨rfl, fun _ _ => rfl, rfl⟩⟩
  · have hm := hmade _ rfl
    have hnew : ∀ d ∈ files, d.inode ≠ w.vnext := fun d hd he => by
      obtain ⟨vn, hv, -⟩ := (h.chain d hd).head.vnode
      rw [he, h.fresh _ (Nat.le_refl _)] at hv
      cases hv
    refine Or.inr ⟨_, rfl, fun hin => hnew _ hin rfl, by rw [hm.client], h.made hdir hk hm, .of_kept hk, fun d hd hne => ?_⟩
    have hclient : dir.client ∉ (ch d).map (·.inode) := by
      rcases List.mem_cons.mp hdir with rfl | hdir
      · exact h.rootDisjoint d hd
      · obtain ⟨y, rest, hy, hyd⟩ := (h.chain dir hdir).first
        exact fun hm => hne (h.disjoint d hd dir hdir _ hm (by rw [hy, ← hyd]; exact List.mem_cons_self))
    have haddress : d.inode ≠ dir.inode := by
      rcases List.mem_cons.mp hdir with rfl | hdir
      · exact h.rootAddress d hd
      · exact fun he => hne (h.address d hd dir hdir he)
    have hobject : Untouched w (w.withMade dir.client name o links c vn) d (ch d) := by
      refine ⟨fun x hx => ?_, (if_neg (hnew d hd)).trans (if_neg (hnew d hd))⟩
      obtain ⟨i, hi⟩ := h.allocated hd (List.mem_map_of_mem hx)
      have hxc : x.inode ≠ c := fun he => by
        rw [he, hfree] at hi
        cases hi
      have hxd : x.inode ≠ dir.client := fun he => hclient (he ▸ List.mem_map_of_mem hx)
      exact (Disk.inode_modify_of_ne hxc).trans ((if_neg hxc).trans (Disk.inode_modify_of_ne hxd))
    exact ⟨Function.update_of_ne (fun he => hnew d hd (congrArg Dentry.inode he)) _ _,
      (hobject.trans (.copiedUp haddress vd i)).trans (.of_warm hw d (ch d))⟩

end Requests

/-! ### Runs -/

/-- A request of userland. `make` is that of `chunkfs_create`, `chunkfs_mkdir`, `chunkfs_symlink` and `chunkfs_mknod`,
    which differ in what they put into the object. --/
inductive Request where
  | make (dir : Dentry) (name : List Char) (o : NewObject) (links : Nat)
  | open (file : File)
  | read (file : File) (len : Nat) (ppos : Int)
  | write (file : File) (data : List UInt8) (ppos : Int)
  | fsync (file : File) (first last : Int)
  | setattr (own : Bool) (d : Dentry) (attr : Iattr)
  | writeInode (d : Dentry)
  | readlink (d : Dentry) (buflen : Nat)
deriving DecidableEq

/-- What a request hands back. --/
inductive Answer where
  | made (r : Except Errno Dentry)
  | opened (r : Except Errno File)
  | io (r : IoResult)
  | done (r : Except Errno Unit)
  | link (r : Except Errno (List UInt8))
  | unknown
deriving DecidableEq

namespace Request

/-- `chunkfs_create`, and the others with what they put into the object. --/
def create (dir : Dentry) (name : List Char) (mode : Nat) : Request := .make dir name ⟨mode, 0, 1, [], 0, true⟩ 0

def mkdir (dir : Dentry) (name : List Char) (mode : Nat) : Request := .make dir name ⟨0o040000 ||| mode, 0, 2, [], 4096, false⟩ 1

def symlink (dir : Dentry) (name : List Char) (oldname : List UInt8) : Request :=
  .make dir name ⟨0o120777, 0, 1, oldname, oldname.length, false⟩ 0

def mknod (dir : Dentry) (name : List Char) (mode dev : Nat) : Request := .make dir name ⟨mode, dev, 1, [], 0, false⟩ 0

/-- The object a request is on; for a new object that is its directory. --/
def target : Request → Dentry
  | .make dir _ _ _ => dir
  | .open file => file.dentry
  | .read file _ _ => file.dentry
  | .write file _ _ => file.dentry
  | .fsync file _ _ => file.dentry
  | .setattr _ d _ => d
  | .writeInode d => d
  | .readlink d _ => d

/-- The objects a request can be on. --/
def targets (root : Dentry) (files : List Dentry) : Request → List Dentry
  | .make _ _ _ _ => root :: files
  | _ => files

def call : Request → Kern Answer
  | .make dir name o links => return .made (← makeObject dir.inode name o links)
  | .open file => return .opened (← openFs file)
  | .read file len ppos => return .io (← Chunkfs.read file len ppos)
  | .write file data ppos => return .io (← Chunkfs.write file data ppos)
  | .fsync file first last => return .done (← fsyncFile file first last)
  | .setattr own d attr => return .done (← Chunkfs.setattr own d attr)
  | .writeInode d => return .done (← Chunkfs.writeInode d.inode)
  | .readlink d buflen => return .link (← Chunkfs.readlink d buflen)

/-- The four operations make what they make in the model of `namei.c`. --/
theorem call_make (dir : Dentry) (name : List Char) (mode dev : Nat) (oldname : List UInt8) :
    (create dir name mode).call = (do return .made (← Chunkfs.create dir.inode name mode)) ∧
      (mkdir dir name mode).call = (do return .made (← Chunkfs.mkdir dir.inode name mode)) ∧
      (symlink dir name oldname).call = (do return .made (← Chunkfs.symlink dir.inode name oldname)) ∧
      (mknod dir name mode dev).call = (do return .made (← Chunkfs.mknod dir.inode name mode dev)) := ⟨rfl, rfl, rfl, rfl⟩

/-- The kernel calls chunkfs only on objects it has. --/
def run (root : Dentry) (files : List Dentry) (q : Request) : Kern Answer :=
  if q.target ∈ q.targets root files then q.call else return .unknown

end Request

/-- The objects after an answer. --/
def Answer.files (files : List Dentry) : Answer → List Dentry
  | .made (.ok d) => d :: files
  | _ => files

/-- Requests one after the other, each in an environment of its own, with their answers. --/
def runRequests (root : Dentry) : List (Env × Request) → List Dentry → Kern (List (Request × Answer))
  | [], _ => return []
  | (e, q) :: rest, files => do
    modify (·.withEnv e)
    let a ← q.run root files
    let log ← runRequests root rest (a.files files)
    return (q, a) :: log

theorem runRequests_single {root : Dentry} {files : List Dentry} {w w' : World} {e : Env} {q : Request}
    {log : List (Request × Answer)} (h : runRequests root [(e, q)] files w = .ok log w') : ∃ a, log = [(q, a)] := by
  unfold runRequests at h
  rw [bind_ok (modify_apply _ w)] at h
  obtain ⟨a, w₁, -, h⟩ := bind_eq_ok.mp h
  cases h
  exact ⟨a, rfl⟩

/-- The objects after a run. --/
def filesAfter (files : List Dentry) (log : List (Request × Answer)) : List Dentry :=
  log.foldl (fun files x => x.2.files files) files

section Runs
variable {w : World} {root d : Dentry} {files : List Dentry} {ch : Dentry → List Continuation}

/-- What a request does: it leaves the files other than its own, a new object is new, and only a write can make a chain
    longer. --/
structure Answered (w : World) (root : Dentry) (files : List Dentry) (ch : Dentry → List Continuation) (q : Request)
    (a : Answer) (w' : World) (ch' : Dentry → List Continuation) : Prop
    extends Moves w root files ch q.target w' (a.files files) ch' where
  new : ∀ d, a = .made (.ok d) → d ∉ files ∧ ch' d = [headOf d] ∧
    ∃ dir ∈ root :: files, d.client.chunk = dir.client.chunk
  steady : (∀ file data p, q ≠ .write file data p) → ∀ d ∈ files, ch' d = ch d

theorem Answered.of_moves {q : Request} {a : Answer} {w' : World} (hm : Moves w root files ch q.target w' files ch)
    (ha : ∀ d, a ≠ .made (.ok d)) : Answered w root files ch q a w' ch where
  toMoves := by
    rcases a with (_ | d) | _ | _ | _ | _ | _
    case made.ok => exact absurd rfl (ha d)
    all_goals exact hm
  new d hd := absurd hd (ha d)
  steady _ _ _ := rfl

/-- One request leaves the files other than its own. --/
theorem Tidy.request (h : Tidy w root files ch) (he : Obliging w.env) (q : Request) :
    Meets (q.run root files) w (fun a w' => ∃ ch', Answered w root files ch q a w' ch') w.env.Stops := by
  have hfuel : ∀ {d}, d ∈ files → (ch d).length < w.env.fuel := fun hd =>
    Nat.lt_of_le_of_lt (h.chain _ hd).length_le_fifteen (Nat.lt_of_succ_lt he.fuel)
  have hc : Calm w := he.script
  have hhead : ∀ {d}, d ∈ files → d.client ∈ (ch d).map (·.inode) := fun hd => by
    obtain ⟨y, rest, hy, hyd⟩ := (h.chain _ hd).first
    rw [hy, ← hyd]
    exact List.mem_cons_self
  unfold Request.run
  by_cases hd : q.target ∈ q.targets root files
  · rw [if_pos hd]
    cases q with
    | make dir name o links =>
      refine (h.make_moves he hd name o links).bind ?_
      rintro r w' (⟨⟨e, rfl⟩, hm⟩ | ⟨d, rfl, hnew, hchunk, hm⟩)
      · exact ⟨ch, .of_moves hm nofun⟩
      · refine ⟨_, hm, fun d' hd' => ?_, fun _ d' hd' => Function.update_of_ne (fun he => ?_) _ _⟩
        · cases hd'
          exact ⟨hnew, Function.update_self _ _ _, dir, hd, hchunk⟩
        · exact hnew (he ▸ hd')
    | «open» file =>
      obtain ⟨r, w', vn, i, hr, hv, hw⟩ := openFs_calm (h.chain _ hd) hc (hfuel hd) rfl
      have h₁ := h.copiesUp hd hv i (ch file.dentry)
      exact meets_bind_ok hr ⟨ch, .of_moves (h₁.trans (h₁.tidy.warmed hw _)) nofun⟩
    | read file len p =>
      obtain ⟨r, w', hr, hw | ⟨vn, i, hv, hw⟩⟩ := read_leaves (p := p) (h.chain _ hd).toChain hc (hfuel hd) rfl len
      · exact meets_bind_ok hr ⟨ch, .of_moves (h.warmed hw _) nofun⟩
      · have h₁ := h.copiesUp hd hv i (ch file.dentry)
        exact meets_bind_ok hr ⟨ch, .of_moves (h₁.trans (h₁.tidy.warmed hw _)) nofun⟩
    | write file data p =>
      obtain ⟨r, w', ch', hr, hm⟩ := h.write_moves he hd data p
      exact meets_bind_ok hr ⟨ch', hm, nofun, fun hq => absurd rfl (hq file data p)⟩
    | fsync file first last =>
      obtain ⟨w', hr, hw⟩ := (fsyncLoop_reads ((h.chain _ hd).walkable.follows hc.honest) hc (hfuel hd) first last w
        (.refl w)).calm hc
      have hrun : fsyncFile file first last w = .ok (.ok ()) w' := (bind_ok (get_apply w)).trans hr
      exact meets_bind_ok hrun ⟨ch, .of_moves (h.warmed hw _) nofun⟩
    | setattr own d attr =>
      obtain ⟨w', vn, i, hr, hv, hw⟩ := setattr_changes (h.chain _ hd).toChain hc (hfuel hd) own attr
      exact meets_bind_ok hr ⟨ch, .of_moves
        (h.changesUp hd (hhead hd) (ClientInode.contData?_setattrBy own attr w.env.now) hv hw) nofun⟩
    | writeInode d =>
      obtain ⟨vn, hv, hclient, -⟩ := (h.chain _ hd).head.vnode
      exact meets_bind_ok (writeInode_calm hc hv hclient) ⟨ch, .of_moves (h.changes hd (hhead hd) fun _ => rfl) nofun⟩
    | readlink d buflen =>
      obtain ⟨vn, hv, hclient, -⟩ := (h.chain _ hd).head.vnode
      obtain ⟨i, hi⟩ := h.allocated hd (hhead hd)
      exact meets_bind_ok (readlink_calm hc hv hclient (inode?_of_live (h.chain _ hd).head.live hi) buflen)
        ⟨ch, .of_moves (h.warmed (.refl w) _) nofun⟩
  · rw [if_neg hd]
    exact ⟨ch, .of_moves (h.warmed (.refl w) _) nofun⟩

theorem Untouched.withEnv (w : World) (e : Env) (d : Dentry) (cs : List Continuation) : Untouched w (w.withEnv e) d cs :=
  ⟨fun _ _ => rfl, rfl⟩

/-- No object is forgotten. --/
theorem Answer.mem_files (hd : d ∈ files) (a : Answer) : d ∈ a.files files := by
  rcases a with (_ | d') | _ | _ | _ | _ | _
  case made.ok => exact List.mem_cons_of_mem _ hd
  all_goals exact hd

theorem filesAfter_subset (hd : d ∈ files) (log : List (Request × Answer)) : d ∈ filesAfter files log := by
  induction log generalizing files with
  | nil => exact hd
  | cons x log ih => exact ih (x.2.mem_files hd)

/-- What holds at the start, and is kept by the change of environment and by each request, holds at the end of a run. --/
theorem Tidy.requests_keep {qs : List (Env × Request)}
    {I : World → List Dentry → (Dentry → List Continuation) → Prop} (h : Tidy w root files ch)
    (he : ∀ x ∈ qs, Obliging x.1) (hI : I w files ch)
    (hstep : ∀ {u files ch a w' ch'}, ∀ x ∈ qs, Tidy u root files ch → I u files ch →
      Answered (u.withEnv x.1) root files ch x.2 a w' ch' → I w' (a.files files) ch') :
    Meets (runRequests root qs files) w (fun log w' => ∃ ch', Tidy w' root (filesAfter files log) ch' ∧
      I w' (filesAfter files log) ch') (Stopped qs) := by
  induction qs generalizing w files ch with
  | nil => exact ⟨ch, h, hI⟩
  | cons x qs ih =>
    obtain ⟨e, q⟩ := x
    have hx : Obliging e := he (e, q) List.mem_cons_self
    have hfirst := ((h.kept (.withEnv w hx)).request hx q).mono (fun _ _ hq => hq) (stopped_head (e, q) qs)
    refine meets_bind_ok (modify_apply _ w) (hfirst.bind fun a w₁ ⟨ch₁, h₁⟩ => ?_)
    have hrest := (ih h₁.tidy (fun x hm => he x (List.mem_cons_of_mem _ hm))
      (hstep (e, q) List.mem_cons_self h hI h₁) fun x hm => hstep x (List.mem_cons_of_mem _ hm)).mono
      (fun _ _ hq => hq) (stopped_tail (e, q))
    exact hrest.bind fun log w₂ hlog => hlog

/-- A run leaves the files none of its requests is on. --/
theorem Tidy.requests {qs : List (Env × Request)} (h : Tidy w root files ch) (he : ∀ x ∈ qs, Obliging x.1) :
    Meets (runRequests root qs files) w (fun log w' => ∃ ch', Tidy w' root (filesAfter files log) ch' ∧
      ∀ d ∈ files, (∀ x ∈ qs, x.2.target ≠ d) → ch' d = ch d ∧ Untouched w w' d (ch d)) (Stopped qs) := by
  refine (h.requests_keep he
    (I := fun w' files' ch' => ∀ d ∈ files, (∀ x ∈ qs, x.2.target ≠ d) → d ∈ files' ∧ ch' d = ch d ∧
      Untouched w w' d (ch d))
    (fun d hd _ => ⟨hd, rfl, .refl w d (ch d)⟩) fun {u files' ch₁ a u' ch₂} x hx _ hI ha d hd hne => by
      obtain ⟨hin, hch₁, hu₁⟩ := hI d hd hne
      obtain ⟨hch₂, hu₂⟩ := ha.others d hin (hne x hx).symm
      rw [hch₁] at hch₂ hu₂
      exact ⟨a.mem_files hin, hch₂, (hu₁.trans (.withEnv u x.1 d (ch d))).trans hu₂⟩).mono ?_ fun _ _ hs => hs
  rintro log w' ⟨ch', ht, hI⟩
  exact ⟨ch', ht, fun d hd hne => (hI d hd hne).2⟩

/-- A run in which nothing that was never set does harm returns. --/
theorem Tidy.requests_return {qs : List (Env × Request)} (h : Tidy w root files ch) (he : ∀ x ∈ qs, Obliging x.1)
    (ht : ∀ x ∈ qs, x.1.Tame) : ∃ log w', runRequests root qs files w = .ok log w' := by
  obtain ⟨log, w', hr, -⟩ := (h.requests he).returns (not_stopped ht)
  exact ⟨log, w', hr⟩

end Runs

/-- In every run on a mounted pool that returns, what comes after any of its states leaves the files it is not on: each
    has the same chain on disk, the same client inodes and the same chunkfs inode. Only memory that was never set can stop
    a run. --/
theorem others_untouched {w : World} {root : Dentry} (h : Mounted w root) (qs qs' : List (Env × Request))
    (he : ∀ x ∈ qs ++ qs', Obliging x.1) :
    (∀ log w₁ log' w₂, runRequests root qs [] w = .ok log w₁ → runRequests root qs' (filesAfter [] log) w₁ = .ok log' w₂ →
      ∃ ch : Dentry → List Continuation, ∀ d ∈ filesAfter [] log, ChainOnDisk w₁ d (ch d) ∧
        ((∀ x ∈ qs', x.2.target ≠ d) → ChainOnDisk w₂ d (ch d) ∧ Untouched w₁ w₂ d (ch d))) ∧
      ((∀ x ∈ qs ++ qs', x.1.Tame) → ∃ log w₁ log' w₂, runRequests root qs [] w = .ok log w₁ ∧
        runRequests root qs' (filesAfter [] log) w₁ = .ok log' w₂) := by
  have hmeets := h.tidy.requests fun x hx => he x (List.mem_append_left _ hx)
  have he' : ∀ x ∈ qs', Obliging x.1 := fun x hx => he x (List.mem_append_right _ hx)
  constructor
  · intro log w₁ log' w₂ hr hr'
    obtain ⟨ch, ht, -⟩ := hmeets.ok hr
    obtain ⟨ch', ht', hout⟩ := (ht.requests he').ok hr'
    refine ⟨ch, fun d hd => ⟨(ht.chain d hd).chainOnDisk, fun hne => ?_⟩⟩
    obtain ⟨hch, hu⟩ := hout d hd hne
    have hd' : d ∈ filesAfter (filesAfter [] log) log' := filesAfter_subset hd log'
    exact ⟨hch ▸ (ht'.chain d hd').chainOnDisk, hu⟩
  · intro htame
    obtain ⟨log, w₁, hr⟩ := h.tidy.requests_return (fun x hx => he x (List.mem_append_left _ hx))
      fun x hx => htame x (List.mem_append_left _ hx)
    obtain ⟨ch, ht, -⟩ := hmeets.ok hr
    obtain ⟨log', w₂, hr'⟩ := ht.requests_return he' fun x hx => htame x (List.mem_append_right _ hx)
    exact ⟨log, w₁, log', w₂, hr, hr'⟩

theorem quietEnv_tame : quietEnv.Tame := ⟨by decide, rfl⟩

/-- Two files are made; then the second grows, is cut off, and the first is left alone. --/
theorem others_untouched_two_files :
    let first : Dentry := ⟨1, ⟨1, 30⟩⟩
    let second : File := ⟨⟨2, ⟨1, 31⟩⟩, 0, 2⟩
    let e : Env := { quietEnv with ialloc := fun _ => 31 }
    let qs : List (Env × Request) := [(quietEnv, .create ⟨0, rootIno⟩ "a".toList 0o100644),
      (e, .create ⟨0, rootIno⟩ "b".toList 0o100644)]
    let qs' : List (Env × Request) := [(quietEnv, .write second [1, 2] 40959), (quietEnv, .write second [3] 40960),
      (quietEnv, .setattr true second.dentry ⟨none, none, none, some 5, none, none, none⟩)]
    ∃ w, readRoot 1 (prepared [1, 2] quietEnv) = .ok (.ok ⟨0, rootIno⟩) w ∧
      ∃ (log : List (Request × Answer)) (w₁ : World) (log' : List (Request × Answer)) (w₂ : World)
        (cs : List Continuation), runRequests ⟨0, rootIno⟩ qs [] w = .ok log w₁ ∧
        filesAfter [] log = [second.dentry, first] ∧
        runRequests ⟨0, rootIno⟩ qs' (filesAfter [] log) w₁ = .ok log' w₂ ∧
        ChainOnDisk w₁ first cs ∧ ChainOnDisk w₂ first cs ∧ Untouched w₁ w₂ first cs := by
  intro first second e qs qs'
  obtain ⟨w, hr, -, hm⟩ := readRoot_mounts [1, 2] (by decide) (by decide) quietEnv_obliging
  have he : Obliging e := ⟨rfl, fun _ => show 31 < 2 ^ 28 by decide, by decide⟩
  have hobliging : ∀ x ∈ qs ++ qs', Obliging x.1 := by simp [qs, qs', he, quietEnv_obliging]
  have htame : ∀ x ∈ qs ++ qs', x.1.Tame := by simp [qs, qs', quietEnv_tame, show e.Tame from quietEnv_tame]
  obtain ⟨hall, hreturns⟩ := others_untouched hm qs qs' hobliging
  obtain ⟨log, w₁, log', w₂, hlog, hlog'⟩ := hreturns htame
  have hvalue : (do
      let _ ← readRoot 1
      let log ← runRequests ⟨0, rootIno⟩ qs []
      return filesAfter [] log : Kern _).run' (prepared [1, 2] quietEnv) = some [second.dentry, first] := by decide +kernel
  obtain ⟨t, ht⟩ := of_run' hvalue
  rw [bind_ok hr, bind_ok hlog] at ht
  obtain ⟨hfiles, -⟩ := EStateM.Result.ok.inj ht
  obtain ⟨ch, hch⟩ := hall log w₁ log' w₂ hlog hlog'
  obtain ⟨hbefore, hafter⟩ := hch first (by rw [hfiles]; decide)
  obtain ⟨hlast, hsame⟩ := hafter (by decide)
  exact ⟨w, hr, log, w₁, log', w₂, ch first, hlog, hfiles, hlog', hbefore, hlast, hsame⟩

end Chunkfs
