import Chunkfs.Theorems.Isolation
import Chunkfs.Theorems.Memory

/-! What lasts through every call, whether it works or fails: a name that leads to a client inode leads to it from then
    on, and no inode loses its last link, on disk or in memory. So a run that removes nothing leaves nothing that goes
    when the pool is unmounted. -/

namespace Chunkfs
open Exec

/-- No inode on disk or in memory is without links. --/
structure World.AllLinked (w : World) : Prop where
  inode : ∀ c i, w.disk.inode c = some i → i.attrs.nlink ≠ 0
  vnode : ∀ v vn, w.vnode v = some vn → vn.attrs.nlink ≠ 0

/-- The names of `w` are names of `w'`, and where all inodes had links all have. --/
structure Lasting (w w' : World) : Prop where
  path : ∀ p c, w.disk.path p = some c → w'.disk.path p = some c
  entry : ∀ dir name c, w.disk.entry dir name = some c → w'.disk.entry dir name = some c
  linked : w.AllLinked → w'.AllLinked

section Lasting
variable {w w' w'' : World} {c : ClientIno} {v : Nat} {α : Type} {m : Kern α}

theorem Lasting.refl (w : World) : Lasting w w := ⟨fun _ _ h => h, fun _ _ _ h => h, id⟩

theorem Lasting.trans (h : Lasting w w') (h' : Lasting w' w'') : Lasting w w'' where
  path p c hp := h'.path p c (h.path p c hp)
  entry dir name c he := h'.entry dir name c (h.entry dir name c he)
  linked hl := h'.linked (h.linked hl)

instance : IsPreorder World Lasting where
  refl := Lasting.refl
  trans _ _ _ := Lasting.trans

instance : IsPreorder World Quiet where
  refl := Quiet.refl
  trans _ _ _ := Quiet.trans

theorem Quiet.lasting (h : Quiet w w') : Lasting w w' where
  path p c hp := by rwa [h.disk]
  entry dir name c he := by rwa [h.disk]
  linked hl := ⟨fun c i hi => hl.inode c i (by rwa [← h.disk]), fun v vn hv => hl.vnode v vn (by rwa [← h.vnode])⟩

theorem lasting (h : Stays Quiet m) : Stays Lasting m := h.mono fun _ _ hq => hq.lasting

theorem ask_lasting : Stays Lasting ask := lasting (quiet ask_still)

/-- A change of a client inode that leaves it its links. --/
theorem Lasting.modify (w : World) (c : ClientIno) {f : ClientInode → ClientInode}
    (hf : ∀ i, i.attrs.nlink ≠ 0 → (f i).attrs.nlink ≠ 0) : Lasting w (w.setDisk (w.disk.modify c f)) where
  path _ _ hp := hp
  entry _ _ _ he := he
  linked hl := by
    refine ⟨fun x i hi => ?_, hl.vnode⟩
    by_cases hx : x = c
    · subst hx
      simp only [World.setDisk, Disk.inode_modify_same] at hi
      obtain ⟨j, hj, rfl⟩ := Option.map_eq_some_iff.mp hi
      exact hf j (hl.inode x j hj)
    · simp only [World.setDisk, Disk.inode_modify_of_ne hx] at hi
      exact hl.inode x i hi

theorem modifyVnode_lasting (v : Nat) (f : Vnode → Vnode) (hf : ∀ vn, vn.attrs.nlink ≠ 0 → (f vn).attrs.nlink ≠ 0) :
    Stays Lasting (modifyVnode v f) := fun w => by
  refine ⟨fun _ _ hp => hp, fun _ _ _ he => he, fun hl => ⟨hl.inode, fun x vn hv => ?_⟩⟩
  by_cases hx : x = v
  · obtain ⟨vn', hv', rfl⟩ := Option.map_eq_some_iff.mp ((if_pos hx).symm.trans hv)
    exact hf vn' (hl.vnode v vn' hv')
  · exact hl.vnode x vn ((if_neg hx).symm.trans hv)

/-- A call that only changes memory keeps the names, so that just the links are left to show. --/
theorem lasting_of_linked (hd : Stays SameDisk m) (hm : ∀ w, w.AllLinked → Lasting w (final (m w))) : Stays Lasting m := by
  intro w
  by_cases hl : w.AllLinked
  · exact hm w hl
  · have h := hd w
    exact ⟨fun p c hp => by rwa [h.disk], fun dir name c he => by rwa [h.disk], fun hl' => absurd hl' hl⟩

end Lasting

/-! ### The walks -/

section Walks
variable {α : Type}

theorem dput_quiet (c : ClientIno) : Stays Quiet (dput c) :=
  refs_quiet fun r => { r with dentry := fun x => r.dentry x - if x = c then 1 else 0 }

theorem kfreeCont_quiet : Stays Quiet kfreeCont := refs_quiet fun r => { r with conts := r.conts - 1 }

theorem kzallocCont_quiet : Stays Quiet kzallocCont := by
  refine (quiet ask_still).bind fun r => ?_
  cases r with
  | some e => exact .pure _
  | none => exact (refs_quiet fun r => { r with conts := r.conts + 1 }).bind fun _ => .pure _

theorem loadContinuation_quiet (c : ClientIno) (chunkId : Nat) : Stays Quiet (loadContinuation c chunkId) := by
  refine kzallocCont_quiet.bind fun ok => .ite (.get_bind fun w => ?_) (.pure _)
  cases findChunk w.pool chunkId with
  | none => exact .throw _
  | some k =>
    refine (quiet (getContData_still c)).bind fun r => ?_
    cases r with
    | error e => exact kfreeCont_quiet.bind fun _ => .pure _
    | ok cd => exact .pure _

theorem putContinuation_quiet (k : Continuation) : Stays Quiet (putContinuation k) :=
  (dput_quiet k.inode).bind fun _ => kfreeCont_quiet

theorem getname_quiet : Stays Quiet getname := by
  refine (quiet ask_still).bind fun r => ?_
  cases r with
  | some e => exact .throw _
  | none => exact .pure _

theorem kernPath_quiet (path : List Char) : Stays Quiet (kernPath path) := by
  refine (quiet ask_still).bind fun r => ?_
  cases r with
  | some e => exact .pure _
  | none =>
    refine .get_bind fun w => ?_
    cases w.disk.path path with
    | none => exact .pure _
    | some c =>
      refine Stays.bind (.modify fun w => (readIn_warm c).quiet) fun _ => ?_
      exact (dget_quiet c).bind fun _ => .pure _

theorem getNextCont_quiet (d : Dentry) (prev : Option Continuation) : Stays Quiet (getNextCont d prev) := by
  refine (quiet (vnodeAt_still d.inode)).bind fun vn => ?_
  cases prev with
  | none =>
    refine (dget_quiet d.client).bind fun _ => (loadContinuation_quiet _ _).bind fun r => ?_
    cases r <;> exact .pure _
  | some prev =>
    refine .ite (.pure _) (.ite (.pure _) (getname_quiet.bind fun _ => (kernPath_quiet _).bind fun r => ?_))
    cases r with
    | error e => exact .pure _
    | ok c =>
      refine (dget_quiet c).bind fun _ => (dput_quiet c).bind fun _ => (loadContinuation_quiet _ _).bind fun r => ?_
      cases r <;> exact .pure _

theorem contAtOffsetLoop_quiet (fuel : Nat) (d : Dentry) (p : Int) (prev : Option Continuation) (null : Bool) :
    Stays Quiet (contAtOffsetLoop fuel d p prev null) := by
  induction fuel generalizing prev null with
  | zero => exact .throw _
  | succ fuel ih =>
    refine (getNextCont_quiet d prev).bind fun r => ?_
    rcases r with e | _ | next
    · exact .pure _
    · exact .pure _
    · exact .ite (.pure _) (ih _ _)

theorem getContAtOffset_quiet (d : Dentry) (p : Int) : Stays Quiet (getContAtOffset d p) :=
  .get_bind fun w => contAtOffsetLoop_quiet w.env.fuel d p none w.env.junkNull

theorem lastCont_quiet (fuel : Nat) (d : Dentry) (prev : Option Continuation) : Stays Quiet (lastCont fuel d prev) := by
  induction fuel generalizing prev with
  | zero => exact .throw _
  | succ fuel ih =>
    refine (getNextCont_quiet d prev).bind fun r => ?_
    rcases r with e | _ | next
    · exact .pure _
    · exact .pure _
    · exact ih _

theorem fsyncLoop_quiet (fuel : Nat) (d : Dentry) (first last : Int) (prev : Option Continuation) :
    Stays Quiet (fsyncLoop fuel d first last prev) := by
  induction fuel generalizing prev with
  | zero => exact .throw _
  | succ fuel ih =>
    refine (getNextCont_quiet d prev).bind fun r => ?_
    rcases r with e | _ | next
    · exact .pure _
    · exact .pure _
    · refine Stays.bind ?_ fun _ => ih _
      refine (quiet ask_still).bind fun err => Stays.bind (.modify fun w => ?_) fun _ => .pure _
      exact ⟨⟨rfl, rfl⟩, rfl, List.suffix_refl _, rfl, .refl w⟩

theorem openFile_quiet (c : ClientIno) (flags : Nat) : Stays Quiet (openFile c flags) :=
  (dget_quiet c).bind fun _ =>
    (refs_quiet fun r => { r with files := fun x => r.files x + if x = c then 1 else 0 }).bind fun _ => .pure _

theorem openContFile_quiet (file : File) (p : Int) : Stays Quiet (openContFile file p) := by
  refine (getContAtOffset_quiet file.dentry p).bind fun r => ?_
  cases r with
  | error e => exact .pure _
  | ok k =>
    refine Stays.bind ?_ fun r => ?_
    · refine (quiet ask_still).bind fun r => ?_
      cases r with
      | some e => exact .pure _
      | none => exact (openFile_quiet k.inode file.flags).bind fun _ => .pure _
    · cases r <;> exact .pure _

end Walks

/-! ### Copying up and down -/

section Copying
variable {w : World} {c : ClientIno} {i : ClientInode}

/-- What is copied up comes from an inode that has links. --/
theorem copyUpInode_lasting (v : Nat) (c : ClientIno) : Stays Lasting (copyUpInode v c) := by
  refine lasting_of_linked (copyUpInode_offDisk v c) fun w hl => ?_
  unfold copyUpInode
  rw [bind_ok (get_apply w)]
  cases hi : w.inode? c with
  | none => exact .refl w
  | some i =>
    have hlink := hl.inode c i (disk_of_inode? hi)
    refine Stays.bind (modifyVnode_lasting v _ fun _ _ => hlink) (fun _ => .get_bind fun u => ?_) w
    exact (lasting (quiet (totalSize_still _ v none 0))).bind fun _ => modifyVnode_lasting v _ fun _ h => h

theorem startInode_lasting (v : Nat) (c : ClientIno) (chunkId : Nat) : Stays Lasting (startInode v c chunkId) :=
  (modifyVnode_lasting v (fun vn => { vn with client := some c, ino := makeUino chunkId c.ino }) fun _ h => h).bind
    fun _ => copyUpInode_lasting v c

theorem closeContFile_lasting (file : File) (client : ClientFile) (k : Continuation) :
    Stays Lasting (closeContFile file client k) :=
  (copyUpInode_lasting _ _).bind fun _ => (lasting (putContinuation_quiet k)).bind fun _ => .pure _

/-- What is copied down comes from a chunkfs inode that has links. --/
theorem writeInode_lasting (v : Nat) : Stays Lasting (writeInode v) := fun w => by
  cases hv : w.vnode v with
  | none =>
    have hr : vnodeAt v w = .error .oops w := by
      unfold vnodeAt
      rw [bind_ok (get_apply w), hv]
      rfl
    unfold writeInode
    rw [bind_error hr]
    exact .refl w
  | some vn =>
    have hr := vnodeAt_used hv
    unfold writeInode
    rw [bind_ok hr]
    cases vn.client with
    | none => exact .refl w
    | some client =>
      dsimp only
      have hdown : copyDownInode v client w =
          .ok () (w.setDisk (w.disk.modify client fun i => { i with attrs := vn.attrs })) := by
        unfold copyDownInode
        rw [bind_ok hr]
        rfl
      have hcopied : Lasting w (w.setDisk (w.disk.modify client fun i => { i with attrs := vn.attrs })) := by
        by_cases hlink : vn.attrs.nlink = 0
        · exact ⟨fun _ _ hp => hp, fun _ _ _ he => he, fun hl => absurd hlink (hl.vnode v vn hv)⟩
        · exact .modify w client fun _ _ => hlink
      rw [bind_ok hdown]
      refine hcopied.trans (Stays.bind ask_lasting (fun r => ?_) _)
      cases r <;> exact .pure _

end Copying

/-! ### The calls -/

section Calls
variable {w u : World} {c : ClientIno} {path : List Char} {mode : Nat}

theorem setContData_lasting (c : ClientIno) (cd : ContData) : Stays Lasting (setContData c cd) :=
  setContData_stays ask_lasting (fun w _ _ => .modify w c fun _ h => h) cd

theorem clientWrite_lasting (file : ClientFile) (data : List UInt8) (p : Int) : Stays Lasting (clientWrite file data p) := by
  refine clientWrite_stays ask_lasting file (fun w => .modify w file.inode fun _ hi => hi) (fun w start stored => ?_) data p
  refine .modify w file.inode fun i hi => ?_
  unfold ClientInode.writeData
  split <;> exact hi

theorem writeOpened_lasting (file : File) (data : List UInt8) (o : Opened) : Stays Lasting (writeOpened file data o) :=
  (clientWrite_lasting _ _ _).bind fun _ => (closeContFile_lasting _ _ _).bind fun _ => .pure _

/-- Opening a path finds what the path leads to, or makes an inode with one link where it led nowhere. --/
theorem openPath_lasting (ho : w.openPath path mode = .ok (c, u)) : Lasting w u := by
  rcases openPath_cases ho with ⟨-, rfl⟩ | ⟨hnone, -, -, -, rfl⟩
  · exact (readIn_warm c).quiet.lasting
  · refine ⟨fun p x hp => ?_, fun _ _ _ he => he, fun hl => ⟨fun x i hi => ?_, hl.vnode⟩⟩
    · have hne : p ≠ path := fun he => by
        rw [he, hnone] at hp
        cases hp
      exact (if_neg hne).trans hp
    · by_cases hx : x = c
      · obtain rfl := Option.some.inj ((if_pos hx).symm.trans hi)
        exact Nat.one_ne_zero
      · exact hl.inode x i ((if_neg hx).symm.trans hi)

theorem filpOpen_lasting (path : List Char) (flags mode : Nat) : Stays Lasting (filpOpen path flags mode) := by
  refine ask_lasting.bind fun r => ?_
  cases r with
  | some e => exact .pure _
  | none =>
    intro w
    dsimp only
    rw [bind_ok (get_apply w)]
    cases ho : w.openPath path mode with
    | error e => exact .refl w
    | ok cu =>
      obtain ⟨c, u⟩ := cu
      refine (openPath_lasting ho).trans ?_
      exact ((lasting (openFile_quiet c flags)).bind fun f => .pure (Except.ok f)) u

theorem createContinuation_lasting (file : File) (p : Int) : Stays Lasting (createContinuation file p) := by
  refine .get_bind fun w => (lasting (lastCont_quiet _ _ _)).bind fun r => ?_
  rcases r with e | _ | prev
  · exact .pure _
  · exact .throw _
  · refine (lasting getname_quiet).bind fun _ => (filpOpen_lasting _ _ _).bind fun r => ?_
    cases r with
    | error e => exact (lasting (putContinuation_quiet prev)).bind fun _ => .pure _
    | ok f =>
      refine (lasting (dget_quiet f.inode)).bind fun _ => (setContData_lasting _ _).bind fun _ => ?_
      refine (setContData_lasting _ _).bind fun _ => (lasting (loadContinuation_quiet _ _)).bind fun r => ?_
      cases r with
      | error e => exact .throw _
      | ok k => exact .pure _

theorem write_lasting (file : File) (data : List UInt8) (p : Int) : Stays Lasting (write file data p) := by
  refine (lasting (openContFile_quiet file p)).bind fun r => ?_
  cases r with
  | ok o => exact writeOpened_lasting file data o
  | error e =>
    refine .ite ((createContinuation_lasting file p).bind fun r => ?_) (.pure _)
    cases r with
    | error e => exact .pure _
    | ok o => exact writeOpened_lasting file data o

theorem read_lasting (file : File) (len : Nat) (p : Int) : Stays Lasting (read file len p) := by
  refine (lasting (openContFile_quiet file p)).bind fun r => ?_
  cases r with
  | error e => exact .pure _
  | ok o =>
    have hread : Stays Lasting (clientRead o.file len o.ppos) := by
      refine ask_lasting.bind fun r => ?_
      cases r with
      | some e => exact .pure _
      | none =>
        refine .get_bind fun w => ?_
        cases w.inode? o.file.inode with
        | none => exact .pure _
        | some i => exact .ite (.pure _) (.pure _)
    exact hread.bind fun _ => (closeContFile_lasting _ _ _).bind fun _ => .pure _

theorem openFs_lasting (file : File) : Stays Lasting (openFs file) := by
  refine (lasting (openContFile_quiet file 0)).bind fun r => ?_
  cases r with
  | error e => exact .pure _
  | ok o => exact (closeContFile_lasting _ _ _).bind fun _ => .pure _

theorem clientSetattr_lasting (c : ClientIno) (attr : Iattr) : Stays Lasting (clientSetattr c attr) := by
  refine ask_lasting.bind fun r => ?_
  cases r with
  | some e => exact .pure _
  | none =>
    refine .get_bind fun w => ?_
    cases w.inode? c with
    | none => exact .pure _
    | some i =>
      refine Stays.bind (.modify fun w => .modify w c fun i hi => ?_) fun _ => .pure _
      unfold ClientInode.setattr
      cases attr.size <;> exact hi

theorem setattrGross_lasting (c : ClientIno) (attr : Iattr) : Stays Lasting (setattrGross c attr) := by
  refine ask_lasting.bind fun r => ?_
  cases r with
  | some e => exact .pure _
  | none =>
    refine ask_lasting.bind fun r => ?_
    cases r with
    | some e => exact .pure _
    | none => exact Stays.bind (.modify fun w => .modify w c fun _ h => h) fun _ => .pure _

theorem setattr_lasting (own : Bool) (d : Dentry) (attr : Iattr) : Stays Lasting (setattr own d attr) := by
  refine (lasting (quiet (vnodeAt_still d.inode))).bind fun vn => ?_
  cases vn.client with
  | none => exact .throw _
  | some client =>
    dsimp only
    split
    · refine (clientSetattr_lasting d.client attr).bind fun r => ?_
      cases r with
      | some e => exact .pure _
      | none => exact (copyUpInode_lasting _ _).bind fun _ => .pure _
    · refine (setattrGross_lasting client attr).bind fun r => ?_
      cases r with
      | some e => exact .pure _
      | none => exact (copyUpInode_lasting _ _).bind fun _ => .pure _

theorem readlink_lasting (d : Dentry) (buflen : Nat) : Stays Lasting (readlink d buflen) := by
  refine (lasting (quiet (vnodeAt_still d.inode))).bind fun vn => ?_
  cases vn.client with
  | none => exact .throw _
  | some client =>
    refine ask_lasting.bind fun r => ?_
    cases r with
    | some e => exact .pure _
    | none =>
      refine .get_bind fun w => ?_
      cases w.inode? d.client <;> exact .pure _

/-! ### Making and finding objects -/

theorem newInode_lasting : Stays Lasting newInode := by
  refine ask_lasting.bind fun r => ?_
  cases r with
  | some e => exact .throw _
  | none =>
    intro w
    refine ⟨fun _ _ hp => hp, fun _ _ _ he => he, fun hl => ⟨hl.inode, fun x vn hv => ?_⟩⟩
    by_cases hx : x = w.vnext
    · obtain rfl := Option.some.inj ((if_pos hx).symm.trans hv)
      exact Nat.one_ne_zero
    · exact hl.vnode x vn ((if_neg hx).symm.trans hv)

theorem iput_lasting (v : Nat) : Stays Lasting (iput v) := by
  refine iput_stays fun w => ?_
  refine ⟨fun _ _ hp => hp, fun _ _ _ he => he, fun hl => ⟨hl.inode, fun x vn hv => ?_⟩⟩
  by_cases hx : x = v
  · cases (if_pos hx).symm.trans hv
  · exact hl.vnode x vn ((if_neg hx).symm.trans hv)

/-- A client makes an object under a name that leads nowhere. --/
theorem clientMake_lasting (dir : ClientIno) (name : List Char) {o : NewObject} (ho : o.nlink ≠ 0) (links : Nat) :
    Stays Lasting (clientMake dir name o links) := by
  refine ask_lasting.bind fun r => ?_
  cases r with
  | some e => exact .pure _
  | none =>
    intro w
    dsimp only
    rw [bind_ok (get_apply w)]
    split
    · exact .refl w
    · rename_i hnone
      split
      · exact .refl w
      · have htouched := Lasting.modify w dir (f := fun i => i.touchDir w.env.now links) fun i hi =>
          fun h => hi (Nat.add_eq_zero_iff.mp h).1
        refine ⟨fun _ _ hp => hp, fun x n c he => ?_, fun hl => ⟨fun x i hi => ?_, hl.vnode⟩⟩
        · have hne : ¬(x = dir ∧ n = name) := fun h => by
            rw [h.1, h.2] at he
            exact hnone (by rw [he]; rfl)
          exact (if_neg hne).trans he
        · by_cases hx : x = ⟨dir.chunk, w.env.ialloc dir.chunk⟩
          · obtain rfl := Option.some.inj ((if_pos hx).symm.trans hi)
            exact ho
          · exact (htouched.linked hl).inode x i ((if_neg hx).symm.trans hi)

theorem makeObject_lasting (dir : Nat) (name : List Char) {o : NewObject} (ho : o.nlink ≠ 0) (links : Nat) :
    Stays Lasting (makeObject dir name o links) := by
  refine (lasting (quiet (vnodeAt_still dir))).bind fun vn => ?_
  cases vn.client with
  | none => exact .throw _
  | some cd =>
    refine newInode_lasting.bind fun v => (copyDownNd_stays o.nd).bind fun _ => ?_
    refine (clientMake_lasting cd name ho links).bind fun r => ?_
    cases r with
    | error e => exact (iput_lasting v).bind fun _ => .pure _
    | ok c =>
      refine (setContData_lasting c initCd).bind fun r => ?_
      cases r with
      | error e => exact (iput_lasting v).bind fun _ => .pure _
      | ok _ => exact (startInode_lasting v c _).bind fun _ => (copyUpInode_lasting dir cd).bind fun _ => .pure _

theorem readRoot_lasting (chunkId : Nat) : Stays Lasting (readRoot chunkId) := by
  refine newInode_lasting.bind fun v => (lasting (kernPath_quiet rootPath)).bind fun r => ?_
  cases r with
  | error e => exact .throw _
  | ok c =>
    refine (lasting (dget_quiet c)).bind fun _ => (setContData_lasting c initCd).bind fun _ => ?_
    refine (startInode_lasting v c chunkId).bind fun _ => ?_
    refine (modifyVnode_lasting v (fun vn => { vn with ino := makeUino chunkId 12 }) fun _ h => h).bind fun _ => ?_
    refine ask_lasting.bind fun r => ?_
    cases r with
    | some e => exact .pure _
    | none =>
      refine (lasting (quiet initDentry_still)).bind fun ok => .ite (.get_bind fun w => ?_) (.pure _)
      cases findChunk w.pool chunkId with
      | none => exact .throw _
      | some k => exact .pure _

end Calls

/-! ### Runs -/

/-- An object that is made has a link. --/
def Request.Links : Request → Prop
  | .make _ _ o _ => o.nlink ≠ 0
  | _ => True

section Runs
variable {root : Dentry} {files : List Dentry}

theorem Request.run_lasting {q : Request} (hq : q.Links) : Stays Lasting (q.run root files) := by
  refine .ite ?_ (.pure _)
  cases q with
  | make dir name o links => exact (makeObject_lasting dir.inode name hq links).bind fun _ => .pure _
  | «open» file => exact (openFs_lasting file).bind fun _ => .pure _
  | read file len p => exact (read_lasting file len p).bind fun _ => .pure _
  | write file data p => exact (write_lasting file data p).bind fun _ => .pure _
  | fsync file first last =>
    exact Stays.bind (.get_bind fun w => lasting (fsyncLoop_quiet w.env.fuel file.dentry first last none)) fun _ => .pure _
  | setattr own d attr => exact (setattr_lasting own d attr).bind fun _ => .pure _
  | writeInode d => exact (writeInode_lasting d.inode).bind fun _ => .pure _
  | readlink d buflen => exact (readlink_lasting d buflen).bind fun _ => .pure _

theorem Lasting.withEnv (w : World) (e : Env) : Lasting w (w.withEnv e) :=
  ⟨fun _ _ h => h, fun _ _ _ h => h, fun hl => ⟨hl.inode, hl.vnode⟩⟩

/-- Names last, and so do links, through every run that makes no object without one. --/
theorem runRequests_lasting {qs : List (Env × Request)} (hq : ∀ x ∈ qs, x.2.Links) :
    Stays Lasting (runRequests root qs files) := by
  induction qs generalizing files with
  | nil => exact .pure _
  | cons x qs ih =>
    obtain ⟨e, q⟩ := x
    refine Stays.bind (.modify fun w => .withEnv w e) fun _ => ?_
    refine (q.run_lasting (hq (e, q) List.mem_cons_self)).bind fun a => ?_
    exact (ih fun x hx => hq x (List.mem_cons_of_mem _ hx)).bind fun _ => .pure _

end Runs

end Chunkfs
