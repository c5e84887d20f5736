import Chunkfs.Client
import Chunkfs.Lib.Exec
import Mathlib.Logic.Function.Basic

/-! The objects that chunkfs keeps in memory for names (`namei.c`, `inode.c`, `super.c`): chunkfs dentries with
    their private data, the client dentries and client inodes they stand on, and chunkfs inodes. Objects are
    known by number; memory that is handed out is never the memory of an older object. -/

namespace Chunkfs
namespace Dcache

/-! ### Objects -/

/-- `struct chunkfs_dentry_priv`: the client dentry, and `path` of the client nameidata. --/
structure Priv where
  clientDentry : Option Nat
  ndDentry : Option Nat
  ndMnt : Bool
deriving DecidableEq

/-- What the memory of a new inode held where `ii_client_inode` lies: NULL, a client inode of an inode that had
    the memory before, or neither. --/
inductive Slot where
  | null
  | stale (c : ClientIno)
  | wild
deriving DecidableEq

/-- How `new_inode` turns out: an inode in memory with that slot, a bad one, or NULL. --/
inductive NewInode where
  | good (slot : Slot)
  | bad (slot : Slot)
  | null
deriving DecidableEq

/-- What the client's `lookup` answers: an error, no inode, an inode (and whether it is a directory), or another
    dentry that stands for the name already. --/
inductive ClientAnswer where
  | fails (e : Errno)
  | absent
  | found (c : ClientIno) (isDir : Bool)
  | alias (cd : Nat) (isDir : Bool)
deriving DecidableEq

/-- How the calls of a `chunkfs_lookup` turn out. --/
structure Answers where
  /-- `kzalloc` of the private data and of the nameidata. -/
  priv : Bool
  nd : Bool
  /-- `d_alloc_name` of the client dentry. -/
  clone : Bool
  /-- `chunkfs_find_chunk`. -/
  chunk : Bool
  client : ClientAnswer
  inode : NewInode
  cont : Option Errno
deriving DecidableEq

/-- A chunkfs dentry. `inUse`: its lookup returned it; `hashed`: the dcache finds it; `freed`: the VFS has
    released it. What its lookup was answered is kept. --/
structure Dentry where
  parent : Nat
  inode : Option Nat
  fsdata : Option Priv
  dops : Bool
  inUse : Bool
  hashed : Bool
  freed : Bool
  answers : Answers
deriving DecidableEq

/-- A client dentry, with the references that chunkfs holds on it. --/
structure ClientDentry where
  inode : Option ClientIno
  count : Int
deriving DecidableEq

/-- `ii_client_inode`, before and after `chunkfs_start_inode`. --/
inductive ClientPtr where
  | unset (slot : Slot)
  | set (c : ClientIno)
deriving DecidableEq

/-- A chunkfs inode; it is in memory while its count is not 0. The attributes are known by the number of the
    change that made them. --/
structure Inode where
  count : Nat
  client : ClientPtr
  ino : Nat
  isDir : Bool
  attrs : Nat
deriving DecidableEq

/-- A client inode: its reference count, its attributes, and those the last `chunkfs_setattr` left. --/
structure ClientInode where
  count : Int
  attrs : Nat
  last : Nat
deriving DecidableEq

structure Cache where
  dentry : Nat → Dentry
  dnext : Nat
  clientDentry : Nat → ClientDentry
  cdnext : Nat
  inode : Nat → Inode
  inext : Nat
  client : ClientIno → ClientInode
  /-- The number of the last change of attributes. -/
  edition : Nat
  /-- References on client mounts, and private data and nameidata that were not freed. -/
  mnts : Int
  privs : Int
  nds : Int

/-- Why an operation does not return: private data or a client dentry that is not there, an inode used after it
    was evicted, `new_inode`'s NULL, an `ii_client_inode` or a nameidata that was never set, or an assertion. --/
inductive Fault where
  | noPriv
  | noClient
  | evicted
  | noInode
  | wild
  | bug
deriving DecidableEq

abbrev Dc := EStateM Fault Cache

/-! ### Changes of the cache -/

namespace Cache

@[simps -fullyApplied] def updDentry (s : Cache) (d : Nat) (f : Dentry → Dentry) : Cache :=
  { s with dentry := Function.update s.dentry d (f (s.dentry d)) }

@[simps -fullyApplied] def updInode (s : Cache) (i : Nat) (f : Inode → Inode) : Cache :=
  { s with inode := Function.update s.inode i (f (s.inode i)) }

@[simps -fullyApplied] def updClientDentry (s : Cache) (cd : Nat) (f : ClientDentry → ClientDentry) : Cache :=
  { s with clientDentry := Function.update s.clientDentry cd (f (s.clientDentry cd)) }

@[simps -fullyApplied] def updClient (s : Cache) (c : ClientIno) (f : ClientInode → ClientInode) : Cache :=
  { s with client := Function.update s.client c (f (s.client c)) }

/-- An inode that nobody has filled in yet. --/
@[simps -fullyApplied] def addInode (s : Cache) (slot : Slot) : Cache :=
  { s with
    inode := Function.update s.inode s.inext { count := 1, client := .unset slot, ino := 0, isDir := false, attrs := 0 }
    inext := s.inext + 1 }

/-- `d_alloc`. --/
@[simps -fullyApplied] def addDentry (s : Cache) (parent : Nat) (a : Answers) : Cache :=
  { s with
    dentry := Function.update s.dentry s.dnext
      { parent := parent, inode := none, fsdata := none, dops := false, inUse := false, hashed := false, freed := false,
        answers := a }
    dnext := s.dnext + 1 }

/-- A client dentry without an inode. --/
@[simps -fullyApplied] def addClientDentry (s : Cache) : Cache :=
  { s with
    clientDentry := Function.update s.clientDentry s.cdnext { inode := none, count := 1 }
    cdnext := s.cdnext + 1 }

@[simps -fullyApplied] def addMnts (s : Cache) (n : Int) : Cache := { s with mnts := s.mnts + n }

/-- A client inode that is attached to a client dentry is held by it. --/
@[simps! -fullyApplied dentry dnext inode inext clientDentry cdnext client edition mnts privs nds]
def attach (s : Cache) (cd : Nat) (c : ClientIno) : Cache :=
  (s.updClientDentry cd fun x => { x with inode := some c }).updClient c fun x => { x with count := x.count + 1 }

/-- The attributes of a client inode change. --/
@[simps! -fullyApplied dentry dnext inode inext clientDentry cdnext client edition mnts privs nds]
def changeAttrs (s : Cache) (c : ClientIno) : Cache :=
  { s.updClient c fun x => { x with attrs := s.edition + 1 } with edition := s.edition + 1 }

/-- The attributes that are there now are those of a `chunkfs_setattr`. --/
@[simps! -fullyApplied dentry dnext inode inext clientDentry cdnext client edition mnts privs nds]
def setLast (s : Cache) (c : ClientIno) : Cache := s.updClient c fun x => { x with last := x.attrs }

@[simps! -fullyApplied dentry dnext inode inext clientDentry cdnext client edition mnts privs nds]
def copyUp (s : Cache) (i : Nat) (c : ClientIno) : Cache :=
  s.updInode i fun x => { x with attrs := (s.client c).attrs }

/-- A chunkfs inode is filled in for a client inode. --/
@[simps! -fullyApplied dentry dnext inode inext clientDentry cdnext client edition mnts privs nds]
def start (s : Cache) (i : Nat) (c : ClientIno) (isDir : Bool) (chunkId : Nat) : Cache :=
  s.updInode i fun x =>
    { x with client := .set c, ino := makeUino chunkId c.ino, isDir := isDir, attrs := (s.client c).attrs }

/-- Private data with its nameidata. --/
@[simps -fullyApplied] def addPrivs (s : Cache) (n : Int) : Cache := { s with privs := s.privs + n, nds := s.nds + n }

end Cache

/-! ### References -/

def dget (cd : Nat) : Dc Unit := modify (·.updClientDentry cd fun x => { x with count := x.count + 1 })

/-- NULL is let pass. --/
def dput : Option Nat → Dc Unit
  | none => return ()
  | some cd => modify (·.updClientDentry cd fun x => { x with count := x.count - 1 })

/-- `iput` of a client inode. --/
def iputClient (c : ClientIno) : Dc Unit := modify (·.updClient c fun x => { x with count := x.count - 1 })

/-- `chunkfs_clear_inode`, when the last reference of an inode is gone. --/
def clearInode (i : Nat) : Dc Unit := do
  match ((← get).inode i).client with
  | .set c => iputClient c
  | .unset .null => return ()
  | .unset (.stale c) => iputClient c
  | .unset .wild => throw .wild

def iput (i : Nat) : Dc Unit := do
  let s ← get
  if (s.inode i).count = 0 then
    throw .evicted
  set (s.updInode i fun x => { x with count := x.count - 1 })
  if (s.inode i).count = 1 then
    clearInode i

/-- `get_client_inode`. --/
def getClientInode (i : Nat) : Dc ClientIno := do
  let s ← get
  if (s.inode i).count = 0 then
    throw .evicted
  match (s.inode i).client with
  | .set c => return c
  | .unset _ => throw .wild

/-- The private data, through `d_fsdata`. --/
def chunkfsD (d : Nat) : Dc Priv := do
  match ((← get).dentry d).fsdata with
  | none => throw .noPriv
  | some p => return p

/-- `get_client_dentry`. --/
def getClientDentry (d : Nat) : Dc (Option Nat) := do
  return (← chunkfsD d).clientDentry

def setFsdata (d : Nat) (p : Option Priv) : Dc Unit := modify (·.updDentry d fun x => { x with fsdata := p })

/-! ### Inodes -/

/-- `chunkfs_new_inode`: NULL is not looked for, and a bad inode is left to nobody. --/
def newInode (answer : NewInode) : Dc (Except Errno Nat) := do
  let s ← get
  match answer with
  | .null => throw .noInode
  | .bad slot =>
    set (s.addInode slot)
    return .error .eio
  | .good slot =>
    set (s.addInode slot)
    return .ok s.inext

/-- `chunkfs_copy_up_inode`, for the attributes. --/
def copyUpInode (i : Nat) (c : ClientIno) : Dc Unit := modify (·.copyUp i c)

/-- `chunkfs_start_inode`: it takes no reference on the client inode. --/
def startInode (i : Nat) (c : ClientIno) (isDir : Bool) (chunkId : Nat) : Dc Unit := modify (·.start i c isDir chunkId)

/-- `d_instantiate`, which takes over the caller's reference. --/
def dInstantiate (d i : Nat) : Dc Unit := modify (·.updDentry d fun x => { x with inode := some i })

/-! ### Dentries -/

def releaseNd (d : Nat) : Dc Unit := do
  let nd ← chunkfsD d
  dput nd.ndDentry
  if nd.ndMnt then
    modify (·.addMnts (-1))

/-- `chunkfs_init_nd`: without the chunk it is an assertion. --/
def initNd (d cd : Nat) (chunk : Bool) : Dc Unit := do
  let nd ← chunkfsD d
  if !chunk then
    throw .bug
  dget cd
  modify (·.addMnts 1)
  setFsdata d (some { nd with ndDentry := some cd, ndMnt := true })

def removeDentry (d : Nat) : Dc Unit := do
  dput (← chunkfsD d).clientDentry

def freeDentry (d : Nat) : Dc Unit := do
  let _ ← chunkfsD d
  modify (·.addPrivs (-1))
  setFsdata d none

/-- `d_release` of `chunkfs_dops`. --/
def releaseDentry (d : Nat) : Dc Unit := do
  releaseNd d
  removeDentry d
  freeDentry d

/-- `chunkfs_init_dentry`; `false` for `-ENOMEM`. --/
def initDentry (d : Nat) (a : Answers) : Dc Bool := do
  let s ← get
  if (s.dentry d).fsdata.isSome then
    throw .bug
  if !a.priv then
    return false
  if !a.nd then
    return false
  set ((s.addPrivs 1).updDentry d fun x => { x with fsdata := some ⟨none, none, false⟩, dops := true })
  return true

/-- `chunkfs_clone_dentry`: a client dentry under the parent's. --/
def cloneDentry (d : Nat) (works : Bool) : Dc (Option Nat) := do
  let s ← get
  match ← getClientDentry (s.dentry d).parent with
  | none => throw .noClient
  | some _ =>
    if !works then
      return none
    set s.addClientDentry
    return some s.cdnext

def addDentry (d cd : Nat) : Dc Unit := do
  setFsdata d (some { ← chunkfsD d with clientDentry := some cd })

/-- A client file system attaches an inode to a dentry, which holds a reference on it. --/
def attach (cd : Nat) (c : ClientIno) : Dc Unit := modify (·.attach cd c)

/-! ### Lookup -/

/-- The inode of a dentry, where the VFS passes one that has it. --/
def inodeOf (d : Nat) : Dc Nat := do
  match ((← get).dentry d).inode with
  | none => throw .noInode
  | some i => return i

/-- `dir`: the inode of the parent. --/
def dirOf (d : Nat) : Dc Nat := do
  inodeOf ((← get).dentry d).parent

/-- The labels from `out_dput` on. --/
def outDput (d cd : Nat) (e : Errno) : Dc (Except Errno Unit) := do
  dput (some cd)
  releaseNd d
  removeDentry d
  freeDentry d
  return .error e

/-- `chunkfs_lookup` from where the client dentry is known, with the inode the client attached to it. A failure
    leaves the new inode to nobody. --/
def fillDentry (d cd : Nat) (found : Option (ClientIno × Bool)) (chunkId : Nat) (a : Answers) :
    Dc (Except Errno Unit) := do
  match found with
  | none =>
    addDentry d cd
    modify (·.updDentry d fun x => { x with hashed := true })
    return .ok ()
  | some (c, isDir) =>
    match ← newInode a.inode with
    | .error e => outDput d cd e
    | .ok i =>
      match a.cont with
      | some e => outDput d cd e
      | none =>
        startInode i c isDir chunkId
        addDentry d cd
        -- d_splice_alias
        modify (·.updDentry d fun x => { x with inode := some i, hashed := true })
        return .ok ()

/-- `chunkfs_lookup` of a new dentry. When no client dentry can be made `err` is still 0, which the VFS takes for
    NULL. --/
def lookup (d : Nat) (a : Answers) : Dc (Except Errno Unit) := do
  let dir ← dirOf d
  let _ ← getClientInode dir
  let chunkId := uinoToChunkId ((← get).inode dir).ino
  if !(← initDentry d a) then
    freeDentry d
    return .error .enomem
  match ← cloneDentry d a.clone with
  | none =>
    removeDentry d
    freeDentry d
    return .ok ()
  | some cd =>
    initNd d cd a.chunk
    match a.client with
    | .fails e => outDput d cd e
    | .absent => fillDentry d cd none chunkId a
    | .found c isDir =>
      attach cd c
      fillDentry d cd (some (c, isDir)) chunkId a
    | .alias other isDir =>
      -- The client returns the other dentry with a reference.
      dget other
      dput (some cd)
      fillDentry d other (((← get).clientDentry other).inode.map (·, isDir)) chunkId a

/-! ### Making, linking and removing -/

/-- How the calls of `chunkfs_create`, `mkdir`, `symlink` and `mknod` turn out, and what the stack of `chunkfs_create`
    holds where its nameidata has its `depth`. --/
structure MakeAnswers where
  inode : NewInode
  depth : Nat
  client : Except Errno ClientIno
  cont : Option Errno

/-- `d_instantiate` of a client dentry that has an inode is an assertion. --/
def instantiateClient (cd : Option Nat) (c : ClientIno) : Dc Unit := do
  match cd with
  | none => throw .noClient
  | some cd =>
    if ((← get).clientDentry cd).inode.isSome then
      throw .bug
    attach cd c

def changeAttrs (c : ClientIno) : Dc Unit := modify (·.changeAttrs c)

/-- The creating operation of a client directory. --/
def clientMake (cd : Option Nat) (answer : Except Errno ClientIno) : Dc (Except Errno ClientIno) := do
  match answer with
  | .error e => return .error e
  | .ok c =>
    instantiateClient cd c
    changeAttrs c
    return .ok c

/-- `chunkfs_copy_down_nd` of the nameidata of `chunkfs_create` (`nd`), which never sets its `depth`. --/
def copyDownNd (nd : Bool) (depth : Nat) : Dc Unit := do
  if nd ∧ maxNestedLinks < depth then
    throw .wild

/-- The body that `chunkfs_create`, `chunkfs_mkdir`, `chunkfs_symlink` and `chunkfs_mknod` share; the first of them
    copies a nameidata down (`nd`). --/
def makeNode (d : Nat) (isDir nd : Bool) (a : MakeAnswers) : Dc (Option Errno) := do
  let dir ← dirOf d
  let clientDir ← getClientInode dir
  let cd ← getClientDentry d
  let chunkId := uinoToChunkId ((← get).inode dir).ino
  match ← newInode a.inode with
  | .error e => return some e
  | .ok i =>
    copyDownNd nd a.depth
    match ← clientMake cd a.client with
    | .error e =>
      iput i
      return some e
    | .ok c =>
      match a.cont with
      | some e =>
        iput i
        return some e
      | none =>
        startInode i c isDir chunkId
        copyUpInode dir clientDir
        dInstantiate d i
        return none

def create (d : Nat) (a : MakeAnswers) : Dc (Option Errno) := makeNode d false true a
def mkdir (d : Nat) (a : MakeAnswers) : Dc (Option Errno) := makeNode d true false a
def symlink (d : Nat) (a : MakeAnswers) : Dc (Option Errno) := makeNode d false false a
def mknod (d : Nat) (a : MakeAnswers) : Dc (Option Errno) := makeNode d false false a

/-- `link` of a client directory: the new dentry gets the inode of the old one. --/
def clientLink (cdOld cdNew : Option Nat) : Dc Unit := do
  match cdOld with
  | none => throw .noClient
  | some cdOld =>
    match ((← get).clientDentry cdOld).inode with
    | none => throw .noClient
    | some c => instantiateClient cdNew c

/-- The reference that the new dentry needs is taken on the directory. --/
def link (old new : Nat) (answer : Option Errno) : Dc (Option Errno) := do
  let dir ← dirOf new
  let _ ← getClientInode dir
  let oldInode ← inodeOf old
  let clientOldInode ← getClientInode oldInode
  let clientOldDentry ← getClientDentry old
  let clientNewDentry ← getClientDentry new
  match answer with
  | some e => return some e
  | none =>
    clientLink clientOldDentry clientNewDentry
    copyUpInode oldInode clientOldInode
    modify (·.updInode dir fun x => { x with count := x.count + 1 })
    dInstantiate new oldInode
    return none

/-- The client's `unlink` leaves the client dentry as it is. --/
def unlink (d : Nat) (answer : Option Errno) : Dc (Option Errno) := do
  let dir ← dirOf d
  let clientDir ← getClientInode dir
  let _ ← getClientDentry d
  let inode ← inodeOf d
  let clientInode ← getClientInode inode
  match answer with
  | some e => return some e
  | none =>
    copyUpInode dir clientDir
    copyUpInode inode clientInode
    return none

def rmdir (d : Nat) (answer : Option Errno) : Dc (Option Errno) := do
  let dir ← dirOf d
  let clientDir ← getClientInode dir
  let clientDentry ← getClientDentry d
  let inode ← inodeOf d
  match answer with
  | some e => return some e
  | none =>
    copyUpInode dir clientDir
    match clientDentry with
    | none => throw .noClient
    | some cd =>
      match ((← get).clientDentry cd).inode with
      | none => throw .noClient
      | some c =>
        copyUpInode inode c
        return none

/-! ### Attributes -/

/-- `chunkfs_setattr`: the client's `setattr` is given the client dentry. --/
def setattr (d : Nat) (answer : Option Errno) : Dc (Option Errno) := do
  let inode ← inodeOf d
  let clientInode ← getClientInode inode
  let clientDentry ← getClientDentry d
  match answer with
  | some e => return some e
  | none =>
    match clientDentry with
    | none => throw .noClient
    | some cd =>
      match ((← get).clientDentry cd).inode with
      | none => throw .noClient
      | some c =>
        changeAttrs c
        modify (·.setLast c)
        copyUpInode inode clientInode
        return none

/-- `chunkfs_write_inode` copies the attributes down. --/
def writeInode (i : Nat) : Dc Unit := do
  let c ← getClientInode i
  modify fun s => s.updClient c fun x => { x with attrs := (s.inode i).attrs }

end Dcache
end Chunkfs
