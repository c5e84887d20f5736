import Chunkfs.File

/-! Names (`namei.c`) and the root directory (`super.c`): making objects, looking them up and removing their
    names. A directory of chunkfs is a directory of the client file system in the same chunk, so an object is
    made in the chunk of its directory, and every way to reach a client inode stores initial continuation data
    in it. -/

namespace Chunkfs

/-! ### The clients' directory operations -/

/-- What a client file system puts into a new inode, and whether chunkfs hands a nameidata of its own down (`nd`). --/
structure NewObject where
  mode : Nat
  rdev : Nat
  nlink : Nat
  data : List UInt8
  size : Nat
  nd : Bool
deriving DecidableEq

/-- The inode a client makes for an object. --/
def NewObject.inode (o : NewObject) (e : Env) : ClientInode :=
  { e.newInode o.mode o.rdev with
    attrs := { (e.newInode o.mode o.rdev).attrs with nlink := o.nlink }
    size := o.size
    byte := fun k => o.data.getD k 0 }

/-- A directory changes: its times, and its link count when it gets a subdirectory. --/
def ClientInode.touchDir (i : ClientInode) (now links : Nat) : ClientInode :=
  { i with attrs := { i.attrs with mtime := now, ctime := now, nlink := i.attrs.nlink + links } }

/-- `create`, `mkdir`, `symlink` and `mknod` of a client directory. --/
def clientMake (dir : ClientIno) (name : List Char) (o : NewObject) (links : Nat) : Kern (Except Errno ClientIno) := do
  match ← ask with
  | some e => return .error e
  | none =>
    let w ← get
    let c : ClientIno := ⟨dir.chunk, w.env.ialloc dir.chunk⟩
    if (w.disk.entry dir name).isSome then
      return .error .eexist
    else if (w.disk.inode c).isSome then
      return .error .enospc
    else
      set { w with
        disk := ((w.disk.modify dir fun i => i.touchDir w.env.now links).insert c (o.inode w.env)).setEntry dir name
          (some c)
        icache := fun x => if x = c then .live else w.icache x }
      return .ok c

/-- `lookup` of a client directory: the inode of the name is read in. --/
def clientLookup (dir : ClientIno) (name : List Char) : Kern (Except Errno (Option ClientIno)) := do
  match ← ask with
  | some e => return .error e
  | none =>
    match (← get).disk.entry dir name with
    | none => return .ok none
    | some c =>
      modify (·.readIn c)
      return .ok (some c)

/-- `unlink` of a client directory. --/
def clientUnlink (dir : ClientIno) (name : List Char) (c : ClientIno) : Kern (Except Errno Unit) := do
  match ← ask with
  | some e => return .error e
  | none =>
    modify fun w => { w with
      disk := ((w.disk.modify dir fun i => i.touchDir w.env.now 0).modify c fun i =>
        { i with attrs := { i.attrs with ctime := w.env.now, nlink := i.attrs.nlink - 1 } }).setEntry dir name none }
    return .ok ()

/-! ### Making objects -/

/-- The last reference on a chunkfs inode is dropped. `chunkfs_clear_inode` puts the client inode even where
    `chunkfs_start_inode` has never set one: what the memory of the inode holds there. --/
def iput (v : Nat) : Kern Unit := do
  let w ← get
  if ((w.vnode v).bind (·.client)).isNone ∧ w.env.slotWild then
    throw .oops
  else
    set { w with vnode := fun x => if x = v then none else w.vnode x }

/-- `chunkfs_copy_down_nd` of a nameidata on the stack of which only the flags are set: `depth` is whatever the stack
    holds, and an index into the saved names. `chunkfs_copy_up_nd` then finds the same `depth`. Only `chunkfs_create`
    hands a nameidata down (`nd`). --/
def copyDownNd (nd : Bool) : Kern Unit := do
  if nd ∧ maxNestedLinks < (← get).env.ndDepth then
    throw .oops

/-- The common body of `chunkfs_create`, `chunkfs_mkdir`, `chunkfs_symlink` and `chunkfs_mknod`. --/
def makeObject (dir : Nat) (name : List Char) (o : NewObject) (links : Nat) : Kern (Except Errno Dentry) := do
  let dirInode ← vnodeAt dir
  match dirInode.client with
  | none => throw .oops
  | some clientDir =>
    let chunkId := uinoToChunkId dirInode.ino
    let v ← newInode
    copyDownNd o.nd
    match ← clientMake clientDir name o links with
    | .error e =>
      iput v
      return .error e
    | .ok c =>
      match ← initContData c with
      | .error e =>
        iput v
        return .error e
      | .ok _ =>
        startInode v c chunkId
        copyUpInode dir clientDir
        return .ok { inode := v, client := c }

def create (dir : Nat) (name : List Char) (mode : Nat) : Kern (Except Errno Dentry) :=
  makeObject dir name { mode := mode, rdev := 0, nlink := 1, data := [], size := 0, nd := true } 0

/-- A new directory has one block and the links of its own two names. --/
def mkdir (dir : Nat) (name : List Char) (mode : Nat) : Kern (Except Errno Dentry) :=
  makeObject dir name { mode := 0o040000 ||| mode, rdev := 0, nlink := 2, data := [], size := 4096, nd := false } 1

def symlink (dir : Nat) (name : List Char) (oldname : List UInt8) : Kern (Except Errno Dentry) :=
  makeObject dir name { mode := 0o120777, rdev := 0, nlink := 1, data := oldname, size := oldname.length, nd := false } 0

def mknod (dir : Nat) (name : List Char) (mode dev : Nat) : Kern (Except Errno Dentry) :=
  makeObject dir name { mode := mode, rdev := dev, nlink := 1, data := [], size := 0, nd := false } 0

/-! ### Looking up and removing names -/

/-- `chunkfs_init_dentry`: memory for the private data and for the nameidata. --/
def initDentry : Kern Bool := do
  match ← ask with
  | some _ => return false
  | none =>
    match ← ask with
    | some _ => return false
    | none => return true

/-- `chunkfs_lookup`: `none` is a negative dentry. Without memory for the private data the dentry is freed
    through a NULL pointer; without memory for the client dentry the error code is still 0. --/
def lookup (dir : Nat) (name : List Char) : Kern (Except Errno (Option Dentry)) := do
  let dirInode ← vnodeAt dir
  match dirInode.client with
  | none => throw .oops
  | some clientDir =>
    let chunkId := uinoToChunkId dirInode.ino
    if ← initDentry then
      match ← ask with
      | some _ => return .ok none
      | none =>
        match findChunk (← get).pool chunkId with
        | none => throw .bug
        | some _ =>
          match ← clientLookup clientDir name with
          | .error e => return .error e
          | .ok none => return .ok none
          | .ok (some c) =>
            let v ← newInode
            match ← initContData c with
            | .error e => return .error e
            | .ok _ =>
              -- One reference of the dentry and one of its nameidata.
              dget c
              dget c
              startInode v c chunkId
              return .ok (some { inode := v, client := c })
    else
      throw .oops

def unlink (dir : Nat) (name : List Char) (dentry : Dentry) : Kern (Except Errno Unit) := do
  match (← vnodeAt dir).client, (← vnodeAt dentry.inode).client with
  | some clientDir, some clientInode =>
    match ← clientUnlink clientDir name dentry.client with
    | .error e => return .error e
    | .ok _ =>
      copyUpInode dir clientDir
      copyUpInode dentry.inode clientInode
      return .ok ()
  | _, _ => throw .oops

/-- A dentry and its inode leave memory (`chunkfs_release_dentry`, `chunkfs_clear_inode`), and with them the
    client inode; a client inode without a name is freed. --/
def World.evict (w : World) (d : Dentry) : World :=
  { w with
    disk := { w.disk with
      inode := fun x =>
        match w.disk.inode x with
        | none => none
        | some i => if x = d.client ∧ i.attrs.nlink = 0 then none else some i }
    icache := fun x => if x = d.client then .absent else w.icache x
    vnode := fun x => if x = d.inode then none else w.vnode x }

/-! ### The root directory -/

/-- The root directory of chunkfs in the root chunk. --/
def rootPath : List Char := "/chunk1/root/".toList

/-- `chunkfs_read_root`: the result of storing the continuation data is dropped, and the number is set again
    after `chunkfs_start_inode`. When the path is not found, a dentry that is not there is freed. --/
def readRoot (chunkId : Nat) : Kern (Except Errno Dentry) := do
  let ino := makeUino chunkId 12
  let v ← newInode
  match ← kernPath rootPath with
  | .error _ => throw .oops
  | .ok c =>
    dget c
    let _ ← initContData c
    startInode v c chunkId
    modifyVnode v fun vn => { vn with ino := ino }
    match ← ask with
    | some _ => return .error .enomem
    | none =>
      if ← initDentry then
        match findChunk (← get).pool chunkId with
        | none => throw .bug
        | some _ => return .ok { inode := v, client := c }
      else
        return .error .enomem

/-! ### A new pool -/

/-- The client file systems as `test.sh` prepares them: the directories 0 to 9 in every chunk, and the root
    directory with its continuation attributes, which carry no terminator there. --/
def preparedDisk (pool : List Nat) (e : Env) : Disk where
  inode c :=
    if c = ⟨1, 12⟩ then
      some { (NewObject.inode ⟨0o040755, 0, 2, [], 4096, false⟩ e) with
        xattr := fun
          | .len => some "40960".toList
          | _ => some "0".toList }
    else none
  path p := if p = rootPath then some ⟨1, 12⟩ else none
  dir p := pool.find? fun k => (List.range 10).any fun f => p = contDir k f
  entry _ _ := none

/-- A pool that has not been mounted yet. --/
def prepared (pool : List Nat) (e : Env) : World where
  disk := preparedDisk pool e
  pool := pool
  icache _ := .absent
  vnode _ := none
  vnext := 0
  refs := ⟨fun _ => 0, fun _ => 0, 0⟩
  fsyncs := []
  env := e

end Chunkfs
