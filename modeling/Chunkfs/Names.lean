import Chunkfs.Make

/-! Name operations (`namei.c`) over client file systems of any kind: what an operation of a client makes of the
    inodes of a directory and of an object is the client's own affair, and chunkfs copies up what it finds. -/

namespace Chunkfs
namespace Names

/-! ### The clients -/

/-- What a client's operation makes of an inode: the attributes and the size may change, the extended attributes
    stay, and the size is still a `loff_t`. --/
structure Change where
  apply : ClientInode → ClientInode
  xattr : ∀ i, (apply i).xattr = i.xattr
  size : ∀ i, i.size < 2 ^ 63 → (apply i).size < 2 ^ 63

/-- An operation on a name of an object: what becomes of the directory and of the object. --/
structure Effect where
  dir : Change
  inode : Change

/-- An operation that makes an object: what becomes of the directory, and the new inode. --/
structure Made where
  dir : Change
  inode : ClientInode
  xattr : ∀ a, inode.xattr a = none
  size : inode.size < 2 ^ 63

/-- The operations of a client directory, for one call. --/
structure ClientOps where
  create (mode : Nat) : Made
  mkdir (mode : Nat) : Made
  symlink (oldname : List UInt8) : Made
  mknod (mode dev : Nat) : Made
  link : Effect
  unlink : Effect
  rmdir : Effect

/-- `create`, `mkdir`, `symlink` and `mknod` of a client directory. --/
def clientMake (dir : ClientIno) (name : List Char) (made : Made) : Kern (Except Errno ClientIno) := do
  match ← ask with
  | some e => return .error e
  | none =>
    let w ← get
    let c : ClientIno := ⟨dir.chunk, w.env.ialloc dir.chunk⟩
    if (w.disk.entry dir name).isSome then
      return .error .eexist
    else if (w.disk.inode c).isSome then
      return .error .enospc
    else
      set { w with
        disk := ((w.disk.modify dir made.dir.apply).insert c made.inode).setEntry dir name (some c)
        icache := fun x => if x = c then .live else w.icache x }
      return .ok c

/-- `link`, `unlink` and `rmdir` of a client directory, which leave `entry` under the name. --/
def clientAct (dir : ClientIno) (name : List Char) (c : ClientIno) (x : Effect) (entry : Option ClientIno) :
    Kern (Except Errno Unit) := do
  match ← ask with
  | some e => return .error e
  | none =>
    modify fun w => { w with
      disk := ((w.disk.modify dir x.dir.apply).modify c x.inode.apply).setEntry dir name entry }
    return .ok ()

/-! ### The operations of chunkfs -/

/-- The common body of `chunkfs_create`, `chunkfs_mkdir`, `chunkfs_symlink` and `chunkfs_mknod`. `nd` says whether a
    nameidata is handed down. --/
def make (dir : Nat) (name : List Char) (made : Made) (nd : Bool) : Kern (Except Errno Dentry) := do
  let dirInode ← vnodeAt dir
  match dirInode.client with
  | none => throw .oops
  | some clientDir =>
    let chunkId := uinoToChunkId dirInode.ino
    let v ← newInode
    copyDownNd nd
    match ← clientMake clientDir name made with
    | .error e =>
      iput v
      return .error e
    | .ok c =>
      match ← initContData c with
      | .error e =>
        iput v
        return .error e
      | .ok _ =>
        startInode v c chunkId
        copyUpInode dir clientDir
        return .ok { inode := v, client := c }

def create (ops : ClientOps) (dir : Nat) (name : List Char) (mode : Nat) : Kern (Except Errno Dentry) :=
  make dir name (ops.create mode) true

def mkdir (ops : ClientOps) (dir : Nat) (name : List Char) (mode : Nat) : Kern (Except Errno Dentry) :=
  make dir name (ops.mkdir mode) false

def symlink (ops : ClientOps) (dir : Nat) (name : List Char) (oldname : List UInt8) : Kern (Except Errno Dentry) :=
  make dir name (ops.symlink oldname) false

def mknod (ops : ClientOps) (dir : Nat) (name : List Char) (mode dev : Nat) : Kern (Except Errno Dentry) :=
  make dir name (ops.mknod mode dev) false

/-- The new dentry takes the inode of the old one. The directory is not copied up. --/
def link (ops : ClientOps) (old : Dentry) (dir : Nat) (name : List Char) : Kern (Except Errno Dentry) := do
  match (← vnodeAt dir).client, (← vnodeAt old.inode).client with
  | some clientDir, some clientOldInode =>
    match ← clientAct clientDir name old.client ops.link (some old.client) with
    | .error e => return .error e
    | .ok _ =>
      copyUpInode old.inode clientOldInode
      return .ok old
  | _, _ => throw .oops

def unlink (ops : ClientOps) (dir : Nat) (name : List Char) (dentry : Dentry) : Kern (Except Errno Unit) := do
  match (← vnodeAt dir).client, (← vnodeAt dentry.inode).client with
  | some clientDir, some clientInode =>
    match ← clientAct clientDir name dentry.client ops.unlink none with
    | .error e => return .error e
    | .ok _ =>
      copyUpInode dir clientDir
      copyUpInode dentry.inode clientInode
      return .ok ()
  | _, _ => throw .oops

def rmdir (ops : ClientOps) (dir : Nat) (name : List Char) (dentry : Dentry) : Kern (Except Errno Unit) := do
  match (← vnodeAt dir).client with
  | none => throw .oops
  | some clientDir =>
    match ← clientAct clientDir name dentry.client ops.rmdir none with
    | .error e => return .error e
    | .ok _ =>
      copyUpInode dir clientDir
      copyUpInode dentry.inode dentry.client
      return .ok ()

/-! ### Calls one after the other -/

/-- The client inode of a chunkfs inode. --/
def clientOf (w : World) (v : Nat) : Option ClientIno := (w.vnode v).bind (·.client)

/-- The world, and the dentry that stands for a name of a directory if there is an object of that name. --/
structure Tree where
  world : World
  dentry : Nat → List Char → Option Dentry

inductive Call where
  | make (x : Making) (dir : Nat) (name : List Char)
  | link (oldDir : Nat) (oldName : List Char) (dir : Nat) (name : List Char)
  | unlink (dir : Nat) (name : List Char)
  | rmdir (dir : Nat) (name : List Char)

/-- A call, what the environment decides in the meantime, and how the client acts. --/
structure Event where
  env : Env
  ops : ClientOps
  call : Call

/-- One of the four operations that make an object. --/
def makes (ops : ClientOps) (dir : Nat) (name : List Char) : Making → Kern (Except Errno Dentry)
  | .create mode => create ops dir name mode
  | .mkdir mode => mkdir ops dir name mode
  | .symlink oldname => symlink ops dir name oldname
  | .mknod mode dev => mknod ops dir name mode dev

namespace Tree

/-- The tree after a call that has returned `ok`, with the dentry of the name. --/
def after {α : Type} (s : Tree) (dir : Nat) (name : List Char) (entry : α → Option Dentry) :
    EStateM.Result Stop World (Except Errno α) → Option Tree
  | .ok (.ok a) w => some ⟨w, fun v n => if v = dir ∧ n = name then entry a else s.dentry v n⟩
  | _ => none

/-- A call that succeeds. The VFS makes objects for negative dentries alone and removes those of positive ones, and it
    gives no directory a second name. --/
def step (s : Tree) (e : Event) : Option Tree :=
  let w := { s.world with env := e.env }
  match e.call with
  | .make x dir name =>
    match s.dentry dir name with
    | some _ => none
    | none => s.after dir name some (makes e.ops dir name x w)
  | .link oldDir oldName dir name =>
    match s.dentry oldDir oldName, s.dentry dir name with
    | some old, none =>
      if clientOf s.world dir = some old.client then none
      else s.after dir name some (link e.ops old dir name w)
    | _, _ => none
  | .unlink dir name =>
    match s.dentry dir name with
    | none => none
    | some d => s.after dir name (fun _ => none) (unlink e.ops dir name d w)
  | .rmdir dir name =>
    match s.dentry dir name with
    | none => none
    | some d => s.after dir name (fun _ => none) (rmdir e.ops dir name d w)

end Tree

end Names
end Chunkfs
