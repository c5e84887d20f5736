import Chunkfs.Dir
import Chunkfs.Theorems.Memory
import Chunkfs.Theorems.NewFile

/-! The references of the calls on open files. Every walk takes a reference on the head's client dentry and one on each
    element that it passes; what is given back is the one element that was opened, and not the client file. -/

namespace Chunkfs
open Exec

/-! ### What is counted -/

/-- The references on a client dentry. --/
def heldOn (c : ClientIno) (w : World) : Int := w.refs.dentry c

/-- The reference that a client inode takes on the dentry `c`, if it is that one's. --/
def isRef (c x : ClientIno) : Int := if c = x then 1 else 0

section Counted
variable {c x : ClientIno} {α : Type} {m : Kern α} {n : α → Int}

theorem isRef_nonneg : 0 ≤ isRef c x := by
  unfold isRef
  split <;> decide

theorem isRef_le : isRef c x ≤ 1 := by
  unfold isRef
  split <;> decide

/-- The references are as they were. --/
def KeepsRefs (w w' : World) : Prop := w'.refs = w.refs

instance : IsPreorder World KeepsRefs where
  refl _ := rfl
  trans _ _ _ h h' := h'.trans h

theorem keepsRefs (h : Stays Still m) : Stays KeepsRefs m := h.mono fun _ _ hs => hs.refs

theorem gains_of_keepsRefs (h : Stays KeepsRefs m) (hn : ∀ a, n a ≤ 0) : Gains (heldOn c) n m :=
  .of_stays (h.mono fun _ _ hr => congrArg (fun r : Refs => r.dentry c) hr) hn

/-- What keeps the references is nothing in a sequence. --/
theorem keepsRefs_bind {β : Type} {f : α → Kern β} {l : β → Int} (h : Stays KeepsRefs m)
    (hf : ∀ a, Gains (heldOn c) l (f a)) : Gains (heldOn c) l (m >>= f) :=
  (gains_of_keepsRefs (n := fun _ => 0) h fun _ => Int.le_refl _).bind fun a => (hf a).mono fun _ => Int.le_of_eq (Int.sub_zero _)

theorem still_bind {β : Type} {f : α → Kern β} {l : β → Int} (h : Stays Still m)
    (hf : ∀ a, Gains (heldOn c) l (f a)) : Gains (heldOn c) l (m >>= f) := keepsRefs_bind (keepsRefs h) hf

theorem dget_gains : Gains (heldOn c) (fun _ => isRef c x) (dget x) := by
  intro w w' _ hr
  cases hr
  exact Int.le_refl _

theorem dput_gains : Gains (heldOn c) (fun _ => -isRef c x) (dput x) := by
  intro w w' _ hr
  cases hr
  exact Int.le_refl _

theorem kfreeCont_gains : Gains (heldOn c) (fun _ => 0) kfreeCont := by
  intro w w' _ hr
  cases hr
  exact Int.le_of_eq (Int.add_zero _)

theorem kzallocCont_gains : Gains (heldOn c) (fun _ => 0) kzallocCont := by
  refine still_bind ask_still fun r => ?_
  cases r with
  | some e => exact .pure (by decide)
  | none =>
    intro w w' _ hr
    cases hr
    exact Int.le_of_eq (Int.add_zero _)

end Counted

/-! ### The walks -/

section Walks
variable {c : ClientIno}

theorem loadContinuation_gains (x : ClientIno) (chunkId : Nat) : Gains (heldOn c) (fun _ => 0) (loadContinuation x chunkId) := by
  refine kzallocCont_gains.bind fun ok => .ite (.get_bind fun w => ?_) (.pure (by decide))
  cases findChunk w.pool chunkId with
  | none => exact .throw _
  | some _ =>
    refine still_bind (getContData_still x) fun r => ?_
    cases r with
    | error e => exact kfreeCont_gains.bind fun _ => .pure (by decide)
    | ok cd => exact .pure (by decide)

theorem getname_gains : Gains (heldOn c) (fun _ => 0) getname := by
  refine still_bind ask_still fun r => ?_
  cases r with
  | some e => exact .throw _
  | none => exact .pure (by decide)

/-- The dentry that a path leads to is held. --/
def foundRef (c : ClientIno) : Except Errno ClientIno → Int
  | .error _ => 0
  | .ok x => isRef c x

theorem readIn_keepsRefs (x : ClientIno) : Stays KeepsRefs (modify (·.readIn x) : Kern PUnit) :=
  .modify fun w => by
    unfold World.readIn
    split <;> rfl

theorem kernPath_gains (path : List Char) : Gains (heldOn c) (foundRef c) (kernPath path) := by
  refine still_bind ask_still fun r => ?_
  cases r with
  | some e => exact .pure (Int.le_refl 0)
  | none =>
    refine .get_bind fun w => ?_
    cases w.disk.path path with
    | none => exact .pure (Int.le_refl 0)
    | some x =>
      refine keepsRefs_bind (readIn_keepsRefs x) fun _ => ?_
      exact (dget_gains (x := x)).bind fun _ => .pure (by simp [foundRef])

/-- The first step of a walk takes a reference on the head, whatever comes of it. --/
theorem getNextCont_first (d : Dentry) : Gains (heldOn d.client) (fun _ => 1) (getNextCont d none) := by
  refine still_bind (vnodeAt_still _) fun vn => ?_
  refine (dget_gains (x := d.client)).bind fun _ => (loadContinuation_gains _ _).bind fun r => ?_
  cases r <;> exact .pure (by simp [isRef])

/-- A later step gives nothing back. --/
theorem getNextCont_later (d : Dentry) (prev : Continuation) : Gains (heldOn c) (fun _ => 0) (getNextCont d (some prev)) := by
  refine still_bind (vnodeAt_still _) fun vn => ?_
  refine .ite (.pure (by decide)) (.ite (.pure (by decide)) ?_)
  refine getname_gains.bind fun _ => (kernPath_gains _).bind fun r => ?_
  cases r with
  | error e => exact .pure (Int.le_refl 0)
  | ok x =>
    refine (dget_gains (x := x)).bind fun _ => (dput_gains (x := x)).bind fun _ => (loadContinuation_gains _ _).bind fun r => ?_
    have hx : 0 ≤ isRef c x := isRef_nonneg
    cases r <;>
      refine .pure ?_ <;>
      simp only [foundRef] <;>
      omega

theorem contAtOffsetLoop_later (fuel : Nat) (d : Dentry) (p : Int) (prev : Continuation) (null : Bool) :
    Gains (heldOn c) (fun _ => 0) (contAtOffsetLoop fuel d p (some prev) null) := by
  induction fuel generalizing prev null with
  | zero => exact .throw _
  | succ fuel ih =>
    refine (getNextCont_later d prev).bind fun r => ?_
    rcases r with e | _ | k
    · exact .pure (by decide)
    · exact .pure (by decide)
    · exact .ite (.pure (by decide)) (ih k false)

/-- A search keeps a reference on the head, whether or not it finds a segment. --/
theorem getContAtOffset_gains (d : Dentry) (p : Int) : Gains (heldOn d.client) (fun _ => 1) (getContAtOffset d p) := by
  refine .get_bind fun w => ?_
  dsimp only
  cases w.env.fuel with
  | zero => exact .throw _
  | succ fuel =>
    refine (getNextCont_first d).bind fun r => ?_
    rcases r with e | _ | k
    · exact .pure (by decide)
    · exact .pure (by decide)
    · exact .ite (.pure (by decide)) (contAtOffsetLoop_later fuel d p k false)

theorem lastCont_later (fuel : Nat) (d : Dentry) (prev : Continuation) :
    Gains (heldOn c) (fun _ => 0) (lastCont fuel d (some prev)) := by
  induction fuel generalizing prev with
  | zero => exact .throw _
  | succ fuel ih =>
    refine (getNextCont_later d prev).bind fun r => ?_
    rcases r with e | _ | k
    · exact .pure (by decide)
    · exact .pure (by decide)
    · exact ih k

theorem lastCont_gains (fuel : Nat) (d : Dentry) : Gains (heldOn d.client) (fun _ => 1) (lastCont fuel d none) := by
  cases fuel with
  | zero => exact .throw _
  | succ fuel =>
    refine (getNextCont_first d).bind fun r => ?_
    rcases r with e | _ | k
    · exact .pure (by decide)
    · exact .pure (by decide)
    · exact lastCont_later fuel d k

theorem clientFsync_gains (x : ClientIno) (first last : Int) : Gains (heldOn c) (fun _ => 0) (clientFsync x first last) := by
  refine still_bind ask_still fun r => ?_
  intro w w' _ hr
  cases hr
  exact Int.le_of_eq (Int.add_zero _)

theorem fsyncLoop_later (fuel : Nat) (d : Dentry) (first last : Int) (prev : Continuation) :
    Gains (heldOn c) (fun _ => 0) (fsyncLoop fuel d first last (some prev)) := by
  induction fuel generalizing prev with
  | zero => exact .throw _
  | succ fuel ih =>
    refine (getNextCont_later d prev).bind fun r => ?_
    rcases r with e | _ | k
    · exact .pure (by decide)
    · exact .pure (by decide)
    · exact (clientFsync_gains k.inode first last).bind fun _ => ih k

end Walks

/-! ### The calls -/

section Calls
variable {c : ClientIno} {file : File}

theorem openFile_gains (x : ClientIno) (flags : Nat) : Gains (heldOn c) (fun _ => isRef c x) (openFile x flags) := by
  refine (dget_gains (x := x)).bind fun _ => ?_
  intro w w' _ hr
  cases hr
  exact Int.le_of_eq (by simp [heldOn])

/-- What the open of a client file takes on `c`. --/
def openedRef (c x : ClientIno) : Except Errno ClientFile → Int
  | .error _ => 0
  | .ok _ => isRef c x

/-- What an open has taken on `c`. --/
def openRef (c : ClientIno) : Except Errno Opened → Int
  | .error _ => 1
  | .ok o => 1 + isRef c o.cont.inode

theorem openContFile_gains (file : File) (p : Int) :
    Gains (heldOn file.dentry.client) (openRef file.dentry.client) (openContFile file p) := by
  refine (getContAtOffset_gains file.dentry p).bind fun r => ?_
  cases r with
  | error e => exact .pure (Int.le_refl 0)
  | ok k =>
    dsimp only
    refine Gains.bind (n := openedRef file.dentry.client k.inode) ?_ fun r => ?_
    · refine still_bind ask_still fun r => ?_
      cases r with
      | some e => exact .pure (Int.le_refl 0)
      | none => exact (openFile_gains k.inode file.flags).bind fun _ => .pure (by simp [openedRef])
    · cases r with
      | error e => exact .pure (by simp [openRef, openedRef])
      | ok f =>
        refine .pure ?_
        simp only [openRef, openedRef]
        omega

theorem modifyVnode_keepsRefs (v : Nat) (f : Vnode → Vnode) : Stays KeepsRefs (modifyVnode v f) := .modify fun _ => rfl

theorem copyUpInode_keepsRefs (v : Nat) (x : ClientIno) : Stays KeepsRefs (copyUpInode v x) := by
  refine .get_bind fun w => ?_
  cases w.inode? x with
  | none => exact .throw _
  | some i =>
    refine (modifyVnode_keepsRefs v _).bind fun _ => .get_bind fun w => ?_
    exact (keepsRefs (totalSize_still _ v none 0)).bind fun total => modifyVnode_keepsRefs v _

/-- Closing gives the reference on the segment back, and none of the client file. --/
theorem closeContFile_gains (file : File) (client : ClientFile) (k : Continuation) :
    Gains (heldOn c) (fun _ => -isRef c k.inode) (closeContFile file client k) := by
  refine keepsRefs_bind (copyUpInode_keepsRefs _ _) fun _ => ?_
  refine Gains.bind (n := fun _ => -isRef c k.inode) ((dput_gains (x := k.inode)).bind fun _ => ?_) fun _ => .pure (by simp)
  exact kfreeCont_gains.mono fun _ => by simp

theorem clientRead_keepsRefs (f : ClientFile) (len : Nat) (p : Int) : Stays KeepsRefs (clientRead f len p) := by
  refine (keepsRefs ask_still).bind fun r => ?_
  cases r with
  | some e => exact .pure _
  | none =>
    refine .get_bind fun w => ?_
    dsimp only
    cases w.inode? f.inode with
    | none => exact .pure _
    | some i => exact .ite (.pure _) (.pure _)

theorem clientWrite_keepsRefs (f : ClientFile) (data : List UInt8) (p : Int) : Stays KeepsRefs (clientWrite f data p) :=
  clientWrite_stays (keepsRefs ask_still) f (fun _ => rfl) (fun _ _ _ => rfl) data p

theorem setContData_keepsRefs (x : ClientIno) (cd : ContData) : Stays KeepsRefs (setContData x cd) :=
  setContData_stays (ask_still.mono fun _ _ h => h.refs) (fun _ _ _ => rfl) cd

theorem filpOpen_gains (path : List Char) (flags mode : Nat) : Gains (heldOn c) (fun _ => 0) (filpOpen path flags mode) := by
  refine still_bind ask_still fun r => ?_
  cases r with
  | some e => exact .pure (by decide)
  | none =>
    intro w w' r hr
    dsimp only at hr
    rw [bind_ok (get_apply w)] at hr
    cases ho : w.openPath path mode with
    | error e =>
      rw [ho] at hr
      cases hr
      exact Int.le_of_eq (Int.add_zero _)
    | ok opened =>
      obtain ⟨x, w₁⟩ := opened
      rw [ho] at hr
      dsimp only at hr
      rw [bind_ok (set_apply w₁ w)] at hr
      have hgain := ((openFile_gains (c := c) x flags).bind (l := fun _ => 0) fun _ => .pure (by simp [isRef_nonneg])) w₁ w' r hr
      have hrefs : w₁.refs = w.refs := openPath_refs ho
      simpa only [heldOn, hrefs, Int.sub_zero] using hgain

/-- Making a continuation keeps a reference on the head, but for the one given back where the new file cannot be opened. --/
def createdRef : Except Errno Opened → Int
  | .error _ => 0
  | .ok _ => 1

theorem createContinuation_gains (file : File) (p : Int) :
    Gains (heldOn file.dentry.client) createdRef (createContinuation file p) := by
  refine .get_bind fun w => (lastCont_gains w.env.fuel file.dentry).bind fun r => ?_
  rcases r with e | _ | prev
  · exact .pure (by simp [createdRef])
  · exact .throw _
  · refine getname_gains.bind fun _ => (filpOpen_gains _ _ _).bind fun r => ?_
    cases r with
    | error e =>
      refine ((dput_gains (x := prev.inode)).bind fun _ => kfreeCont_gains.mono fun _ => Int.le_of_eq (Int.sub_self _)).bind
        fun _ => .pure ?_
      have : isRef file.dentry.client prev.inode ≤ 1 := isRef_le
      simp only [createdRef]
      omega
    | ok f =>
      refine (dget_gains (x := f.inode)).bind fun _ => ?_
      refine keepsRefs_bind (setContData_keepsRefs _ _) fun _ => ?_
      refine keepsRefs_bind (setContData_keepsRefs _ _) fun _ => ?_
      refine (loadContinuation_gains _ _).bind fun r => ?_
      have hnew : 0 ≤ isRef file.dentry.client f.inode := isRef_nonneg
      cases r with
      | error e => exact .throw _
      | ok k =>
        refine .pure ?_
        simp only [createdRef]
        omega

theorem writeOpened_gains (file : File) (data : List UInt8) (o : Opened) :
    Gains (heldOn c) (fun _ => -isRef c o.cont.inode) (writeOpened file data o) := by
  refine keepsRefs_bind (clientWrite_keepsRefs _ _ _) fun t => ?_
  exact (closeContFile_gains file o.file o.cont).bind fun _ => .pure (by simp)

theorem read_gains (file : File) (len : Nat) (p : Int) : Gains (heldOn file.dentry.client) (fun _ => 1) (read file len p) := by
  refine (openContFile_gains file p).bind fun r => ?_
  cases r with
  | error e => exact .pure (by simp [openRef])
  | ok o =>
    refine keepsRefs_bind (clientRead_keepsRefs _ _ _) fun t => ?_
    refine (closeContFile_gains _ _ o.cont).bind fun _ => .pure ?_
    simp only [openRef]
    omega

theorem write_gains (file : File) (data : List UInt8) (p : Int) :
    Gains (heldOn file.dentry.client) (fun _ => 1) (write file data p) := by
  refine (openContFile_gains file p).bind fun r => ?_
  cases r with
  | ok o =>
    refine (writeOpened_gains file data o).mono fun _ => ?_
    simp only [openRef]
    omega
  | error e =>
    refine .ite ((createContinuation_gains file p).bind fun r => ?_) (.pure (by simp [openRef]))
    cases r with
    | error e => exact .pure (by simp [openRef, createdRef])
    | ok o =>
      refine (writeOpened_gains file data o).mono fun _ => ?_
      have : isRef file.dentry.client o.cont.inode ≤ 1 := isRef_le
      simp only [openRef, createdRef]
      omega

theorem openFs_gains (file : File) : Gains (heldOn file.dentry.client) (fun _ => 1) (openFs file) := by
  refine (openContFile_gains file 0).bind fun r => ?_
  cases r with
  | error e => exact .pure (by simp [openRef])
  | ok o =>
    refine (closeContFile_gains _ _ o.cont).bind fun _ => .pure ?_
    simp only [openRef]
    omega

theorem fsyncFile_gains (file : File) (first last : Int) :
    Gains (heldOn file.dentry.client) (fun _ => 1) (fsyncFile file first last) := by
  refine .get_bind fun w => ?_
  cases w.env.fuel with
  | zero => exact .throw _
  | succ fuel =>
    refine (getNextCont_first file.dentry).bind fun r => ?_
    rcases r with e | _ | k
    · exact .pure (by decide)
    · exact .pure (by decide)
    · exact (clientFsync_gains k.inode first last).bind fun _ => fsyncLoop_later fuel file.dentry first last k

theorem dirLlseek_gains (llseek : ClientFile → Int → Origin → Sought) (file : File) (offset : Int) (origin : Origin) :
    Gains (heldOn file.dentry.client) (fun _ => 1) (dirLlseek llseek file offset origin) := by
  refine (openContFile_gains file offset).bind fun r => ?_
  cases r with
  | error e => exact .pure (by simp [openRef])
  | ok o =>
    refine (closeContFile_gains _ _ o.cont).bind fun _ => .pure ?_
    simp only [openRef]
    omega

theorem iterate_gains {α : Type} (own : ClientFile → Int → Listing α) (file : File) (ctxPos : Int) :
    Gains (heldOn file.dentry.client) (fun _ => 1) (iterate own file ctxPos) := by
  refine (openContFile_gains file file.pos).bind fun r => ?_
  cases r with
  | error e => exact .pure (by simp [openRef])
  | ok o =>
    refine (closeContFile_gains _ _ o.cont).bind fun _ => .pure ?_
    simp only [openRef]
    omega

end Calls

/-- A call on an open file. --/
inductive FileCall (α : Type) where
  | read (len : Nat) (ppos : Int)
  | write (data : List UInt8) (ppos : Int)
  | openFs
  | fsyncFile (first last : Int)
  | dirLlseek (llseek : ClientFile → Int → Origin → Sought) (offset : Int) (origin : Origin)
  | iterate (clientIterate : ClientFile → Int → Listing α) (ctxPos : Int)

/-- The call, without what it returns. --/
def FileCall.call {α : Type} (file : File) : FileCall α → Kern Unit
  | .read len ppos => discard (Chunkfs.read file len ppos)
  | .write data ppos => discard (Chunkfs.write file data ppos)
  | .openFs => discard (Chunkfs.openFs file)
  | .fsyncFile first last => discard (Chunkfs.fsyncFile file first last)
  | .dirLlseek llseek offset origin => discard (Chunkfs.dirLlseek llseek file offset origin)
  | .iterate clientIterate ctxPos => discard (Chunkfs.iterate clientIterate file ctxPos)

/-- The references on the dentries of the head and of every inode that was there, the open client files and the
    continuation objects are as many as before. --/
structure Balanced (d : Dentry) (w w' : World) : Prop where
  dentry : ∀ c, c = d.client ∨ w.disk.inode c ≠ none → w'.refs.dentry c = w.refs.dentry c
  files : ∀ c, c = d.client ∨ w.disk.inode c ≠ none → w'.refs.files c = w.refs.files c
  conts : w'.refs.conts = w.refs.conts

theorem FileCall.gains {α : Type} (x : FileCall α) (file : File) : Gains (heldOn file.dentry.client) (fun _ => 1) (x.call file) := by
  have hdiscard : ∀ {β : Type} {m : Kern β}, Gains (heldOn file.dentry.client) (fun _ => 1) m →
      Gains (heldOn file.dentry.client) (fun _ => 1) (discard m) := fun hm => hm.bind fun _ => .pure (by decide)
  cases x with
  | read len ppos => exact hdiscard (read_gains file len ppos)
  | write data ppos => exact hdiscard (write_gains file data ppos)
  | openFs => exact hdiscard (openFs_gains file)
  | fsyncFile first last => exact hdiscard (fsyncFile_gains file first last)
  | dirLlseek llseek offset origin => exact hdiscard (dirLlseek_gains llseek file offset origin)
  | iterate clientIterate ctxPos => exact hdiscard (iterate_gains clientIterate file ctxPos)

/-- No call that returns gives back all it has taken. --/
theorem call_never_balanced {α : Type} (x : FileCall α) {file : File} {w w' : World} (h : x.call file w = .ok () w') :
    w.refs.dentry file.dentry.client < w'.refs.dentry file.dentry.client ∧ ¬Balanced file.dentry w w' := by
  have hgain : w.refs.dentry file.dentry.client + 1 ≤ w'.refs.dentry file.dentry.client := x.gains file w w' () h
  refine ⟨by omega, fun hb => ?_⟩
  have := hb.dentry _ (Or.inl rfl)
  omega

/-! ### A new file -/

theorem openFs_oneFile : ∃ w', (FileCall.openFs : FileCall Unit).call firstFile (oneFile [1] quietEnv) = .ok () w' ∧
    w'.refs.dentry firstIno = 1 := by
  have hvalue : (match (FileCall.openFs : FileCall Unit).call firstFile (oneFile [1] quietEnv) with
      | .ok _ w' => some (w'.refs.dentry firstIno)
      | .error _ _ => none) = some 1 := by decide +kernel
  cases hr : (FileCall.openFs : FileCall Unit).call firstFile (oneFile [1] quietEnv) with
  | error e w' =>
    rw [hr] at hvalue
    cases hvalue
  | ok u w' =>
    rw [hr] at hvalue
    exact ⟨w', rfl, Option.some.inj hvalue⟩

theorem call_never_balanced_oneFile : ∃ w', (FileCall.openFs : FileCall Unit).call firstFile (oneFile [1] quietEnv) = .ok () w' ∧
    ¬Balanced firstDentry (oneFile [1] quietEnv) w' := by
  obtain ⟨w', hr, -⟩ := openFs_oneFile
  exact ⟨w', hr, (call_never_balanced _ hr).2⟩

/-- Opening a new file once leaves a reference on its client dentry. --/
theorem not_balanced_oneFile : NewFile (oneFile [1] quietEnv) firstDentry ∧
    ∃ w', (FileCall.openFs : FileCall Unit).call firstFile (oneFile [1] quietEnv) = .ok () w' ∧
      ¬Balanced firstDentry (oneFile [1] quietEnv) w' := by
  obtain ⟨w', hr, hone⟩ := openFs_oneFile
  refine ⟨oneFile_quiet (by decide) (by decide), w', hr, fun hb => ?_⟩
  have hzero : w'.refs.dentry firstIno = 0 := hb.dentry firstIno (Or.inl rfl)
  omega

end Chunkfs
