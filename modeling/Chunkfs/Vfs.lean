import Chunkfs.Dcache
import Chunkfs.Lib.Run

/-! What the VFS does with chunkfs dentries: it calls the operations on names, makes a dentry negative or drops it
    after its name was removed, releases dentries it no longer needs, changes attributes and writes inodes back. -/

namespace Chunkfs
namespace Dcache

/-- A lookup of a new name in a directory, an operation on a dentry, or the release of one. --/
inductive Event where
  | lookup (parent : Nat) (a : Answers)
  | create (d : Nat) (a : MakeAnswers)
  | mkdir (d : Nat) (a : MakeAnswers)
  | symlink (d : Nat) (a : MakeAnswers)
  | mknod (d : Nat) (a : MakeAnswers)
  | link (old new : Nat) (answer : Option Errno)
  | unlink (d : Nat) (answer : Option Errno) (keep : Bool)
  | rmdir (d : Nat) (answer : Option Errno) (keep : Bool)
  | release (d : Nat)
  | setattr (d : Nat) (answer : Option Errno)
  | writeInode (i : Nat)

/-! ### What the VFS asks for -/

namespace Cache

/-- The dentry has an inode, which is a directory or not. --/
def hasInode (s : Cache) (d : Nat) (isDir : Bool) : Bool :=
  match (s.dentry d).inode with
  | none => false
  | some i => (s.inode i).isDir == isDir

/-- A dentry of a directory. --/
def isDir (s : Cache) (d : Nat) : Bool := !(s.dentry d).freed && s.hasInode d true

/-- A dentry that a lookup returned and that has no inode, in a directory. --/
def isNegative (s : Cache) (d : Nat) : Bool :=
  (s.dentry d).inUse && !(s.dentry d).freed && (s.dentry d).inode.isNone && s.isDir (s.dentry d).parent

/-- A dentry of an inode, which is a directory or not. --/
def isPositive (s : Cache) (d : Nat) (isDir : Bool) : Bool :=
  (s.dentry d).inUse && !(s.dentry d).freed && s.hasInode d isDir

/-- A name that can be removed. --/
def isRemovable (s : Cache) (d : Nat) (isDir : Bool) : Bool :=
  s.isPositive d isDir && (s.dentry d).hashed && decide (0 < d) && s.isDir (s.dentry d).parent

/-- The root dentry stays, and a dentry is released after those below it. --/
def isUnused (s : Cache) (d : Nat) : Bool :=
  decide (0 < d) && decide (d < s.dnext) && !(s.dentry d).freed &&
    (List.range s.dnext).all fun k => (s.dentry k).parent != d || (s.dentry k).freed

/-- Another dentry that a client's lookup returns is there and has an inode. --/
def hasAlias (s : Cache) : ClientAnswer → Bool
  | .alias cd _ => decide (cd < s.cdnext) && (s.clientDentry cd).inode.isSome
  | _ => true

/-- When the VFS makes the call. --/
def allows (s : Cache) : Event → Bool
  | .lookup parent a => decide (parent < s.dnext) && s.isDir parent && s.hasAlias a.client
  | .create d _ => s.isNegative d
  | .mkdir d _ => s.isNegative d
  | .symlink d _ => s.isNegative d
  | .mknod d _ => s.isNegative d
  | .link old new _ => s.isPositive old false && s.isNegative new
  | .unlink d _ _ => s.isRemovable d false
  | .rmdir d _ _ => s.isRemovable d true
  | .release d => s.isUnused d
  | .setattr d _ => s.isPositive d false || s.isPositive d true
  | .writeInode i => decide ((s.inode i).count ≠ 0) &&
    match (s.inode i).client with
    | .set _ => true
    | .unset _ => false

end Cache

/-! ### What it does -/

/-- `d_alloc`. --/
def newDentry (parent : Nat) (a : Answers) : Dc Nat := do
  let s ← get
  set (s.addDentry parent a)
  return s.dnext

/-- `d_delete`, when the name is gone: the dentry is kept as a negative one, or dropped as it is. --/
def dDelete (d : Nat) (keep : Bool) : Dc Unit := do
  if keep then
    let i ← inodeOf d
    modify (·.updDentry d fun x => { x with inode := none })
    iput i
  else
    modify (·.updDentry d fun x => { x with hashed := false })

/-- A call that removes a name, and what follows it. --/
def remove (d : Nat) (keep : Bool) (op : Dc (Option Errno)) : Dc Unit := do
  match ← op with
  | some _ => return ()
  | none => dDelete d keep

/-- `dentry_iput`. --/
def dentryIput (d : Nat) : Dc Unit := do
  match ((← get).dentry d).inode with
  | none => return ()
  | some i =>
    modify (·.updDentry d fun x => { x with inode := none })
    iput i

/-- `d_release`, for the dentries that have it. --/
def dRelease (d : Nat) : Dc Unit := do
  if ((← get).dentry d).dops then
    releaseDentry d

/-- The last reference of a dentry is dropped: first its inode goes, then its private data. --/
def dKill (d : Nat) : Dc Unit := do
  dentryIput d
  dRelease d
  modify (·.updDentry d fun x => { x with hashed := false, freed := true })

/-- The call of a new dentry's lookup; the VFS goes on with the dentry when it is returned. --/
def lookupNew (parent : Nat) (a : Answers) : Dc Unit := do
  let d ← newDentry parent a
  match ← lookup d a with
  | .error _ => return ()
  | .ok () => modify (·.updDentry d fun x => { x with inUse := true })

def Event.exec : Event → Dc Unit
  | .lookup parent a => lookupNew parent a
  | .create d a => do let _ ← Dcache.create d a
  | .mkdir d a => do let _ ← Dcache.mkdir d a
  | .symlink d a => do let _ ← Dcache.symlink d a
  | .mknod d a => do let _ ← Dcache.mknod d a
  | .link old new answer => do let _ ← Dcache.link old new answer
  | .unlink d answer keep => remove d keep (Dcache.unlink d answer)
  | .rmdir d answer keep => remove d keep (Dcache.rmdir d answer)
  | .release d => dKill d
  | .setattr d answer => do let _ ← Dcache.setattr d answer
  | .writeInode i => Dcache.writeInode i

/-! ### Mounting -/

/-- `kern_path` finds the client dentry of the root, with a reference on it and on the mount. --/
def kernPath (cd : Nat) : Dc Unit := do
  dget cd
  modify (·.addMnts 1)

def pathPut (cd : Nat) : Dc Unit := do
  dput (some cd)
  modify (·.addMnts (-1))

/-- `chunkfs_read_root` from where there is a root dentry. When the private data cannot be had the inode is put
    twice. --/
def fillRoot (d i cd : Nat) (a : Answers) : Dc (Option Errno) := do
  if !(← initDentry d a) then
    dKill d
    iput i
    return some .enomem
  initNd d cd a.chunk
  addDentry d cd
  pathPut cd
  return none

/-- `chunkfs_read_root`. When the path is not found there is no root dentry whose private data could be freed, and
    `d_make_root` has put the inode already when it fails. --/
def readRoot (cd chunkId : Nat) (path : Option Errno) (root : Bool) (a : Answers) : Dc (Option Errno) := do
  let s ← get
  match a.inode with
  | .null => throw .noInode
  | .good slot | .bad slot =>
    set (s.addInode slot)
    match path with
    | some _ => throw .noPriv
    | none =>
      kernPath cd
      dget cd
      match (s.clientDentry cd).inode with
      | none => throw .bug
      | some c =>
        startInode s.inext c true chunkId
        modify (·.updInode s.inext fun x => { x with ino := makeUino chunkId 12 })
        if !root then
          iput s.inext
          iput s.inext
          return some .enomem
        else
          let d ← newDentry s.dnext a
          modify (·.updDentry d fun x => { x with inode := some s.inext, inUse := true, hashed := true })
          fillRoot d s.inext cd a

/-- Before the mount: the client dentry of the root directory `c` is there, and nothing of chunkfs. --/
def Cache.fresh (c : ClientIno) : Cache :=
  let a : Answers := ⟨true, true, true, true, .absent, .null, none⟩
  { dentry := fun _ => { parent := 0, inode := none, fsdata := none, dops := false, inUse := false, hashed := false,
                         freed := false, answers := a }
    dnext := 0
    clientDentry := fun k => { inode := if k = 0 then some c else none, count := 0 }
    cdnext := 1
    inode := fun _ => { count := 0, client := .unset .null, ino := 0, isDir := false, attrs := 0 }
    inext := 0
    client := fun c' => { count := if c' = c then 1 else 0, attrs := 0, last := 0 }
    edition := 0, mnts := 0, privs := 0, nds := 0 }

/-- After a mount that worked. --/
def mounted (c : ClientIno) (chunkId : Nat) : Cache :=
  Exec.final (readRoot 0 chunkId none true ⟨true, true, true, true, .found c true, .good .null, none⟩ (.fresh c))

/-- A step of the whole: the cache after the operation, or why it did not return. --/
def step (x : Except Fault Cache) (e : Event) : Option (Except Fault Cache) :=
  match x with
  | .error _ => none
  | .ok s =>
    if s.allows e then
      match e.exec s with
      | .ok _ t => some (.ok t)
      | .error f _ => some (.error f)
    else none

end Dcache
end Chunkfs
