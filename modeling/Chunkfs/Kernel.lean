import Chunkfs.Client
import Chunkfs.Lib.Exec

/-! The state chunkfs works on and the calls it makes into the kernel and the client file systems. A call
    is answered as the environment's script says: it works, fails with an error code, or the machine stops
    before it. After the script's end every call works. -/

namespace Chunkfs
open Word

/-! ### The client file systems on disk -/

/-- The client file systems: their inodes, the files found by absolute path, the client file system that
    holds the directory at a path, and the names in client directories. --/
structure Disk where
  inode : ClientIno → Option ClientInode
  path : List Char → Option ClientIno
  dir : List Char → Option Nat
  entry : ClientIno → List Char → Option ClientIno

namespace Disk

def modify (d : Disk) (c : ClientIno) (f : ClientInode → ClientInode) : Disk :=
  { d with inode := fun x => if x = c then (d.inode c).map f else d.inode x }

/-- A new inode. --/
def insert (d : Disk) (c : ClientIno) (i : ClientInode) : Disk :=
  { d with inode := fun x => if x = c then some i else d.inode x }

def setPath (d : Disk) (p : List Char) (c : ClientIno) : Disk :=
  { d with path := fun q => if q = p then some c else d.path q }

def setEntry (d : Disk) (dir : ClientIno) (name : List Char) (c : Option ClientIno) : Disk :=
  { d with entry := fun x n => if x = dir ∧ n = name then c else d.entry x n }

/-- The continuation data stored at an inode. --/
def contData? (d : Disk) (c : ClientIno) : Option ContData :=
  match d.inode c with
  | none => none
  | some i => i.contData?

end Disk

/-! ### Kernel objects -/

/-- How a client inode stands in the inode cache: not cached, read in, created by `iget_locked` without
    being read in, or marked bad. --/
inductive Cached where
  | absent
  | live
  | blank
  | bad
deriving DecidableEq

/-- A chunkfs inode in memory: its number, attributes and size, and its head client inode, which is not
    set before `chunkfs_start_inode`. --/
structure Vnode where
  ino : Nat
  attrs : Attrs
  size : Int
  client : Option ClientIno

/-- A chunkfs dentry of a file: the address of its inode and the inode of its client dentry. --/
structure Dentry where
  inode : Nat
  client : ClientIno
deriving DecidableEq

/-- `struct file` of chunkfs. --/
structure File where
  dentry : Dentry
  pos : Int
  flags : Nat
deriving DecidableEq

/-- `struct file` of a client file system. --/
structure ClientFile where
  inode : ClientIno
  pos : Int
  flags : Nat
deriving DecidableEq

/-- `struct chunkfs_continuation`; `co_mnt` is the mount of the chunk `chunkId`. --/
structure Continuation where
  inode : ClientIno
  cd : ContData
  chunkId : Nat
  uino : Nat
deriving DecidableEq

/-- What chunkfs holds of the client side: references on client dentries, open client files and
    continuation objects. --/
structure Refs where
  dentry : ClientIno → Int
  files : ClientIno → Int
  conts : Int

/-- A call of a client's `fsync` that returned, with the error it returned if any. --/
structure Fsync where
  inode : ClientIno
  first : Int
  last : Int
  err : Option Errno

/-- How a call into the kernel or a client file system turns out. --/
inductive Outcome where
  | works
  | fails (e : Errno)
  | halts

/-- What the environment decides: how the coming calls turn out, the inode number each client file system
    allocates next, how many bytes a client transfers at most, the time, the caller's identity, groups and
    `CAP_FSETID`, what memory that is never set holds, and how long a walk is followed. --/
structure Env where
  script : List Outcome
  ialloc : Nat → Nat
  limit : Option Nat
  now : Nat
  fsuid : Nat
  fsgid : Nat
  inGroup : Nat → Bool
  fsetid : Bool
  umask : Nat
  /-- The stack slot of an unset pointer holds NULL. --/
  junkNull : Bool
  /-- What the stack holds where a `struct nameidata` has its `depth`. --/
  ndDepth : Nat
  /-- A new chunkfs inode has something other than NULL or a client inode at `ii_client_inode`. --/
  slotWild : Bool
  fuel : Nat

/-- Why a call does not return: an assertion, a wild pointer, a walk without end, the machine stopping. --/
inductive Stop where
  | bug
  | oops
  | hang
  | halt
deriving DecidableEq

structure World where
  disk : Disk
  /-- `ci_chunk_id` of the chunks of the pool's devices, in list order. -/
  pool : List Nat
  icache : ClientIno → Cached
  vnode : Nat → Option Vnode
  /-- The address the next chunkfs inode gets. -/
  vnext : Nat
  refs : Refs
  fsyncs : List Fsync
  env : Env

abbrev Kern := EStateM Stop World

/-! ### Calls -/

/-- The next answer of the script. --/
def ask : Kern (Option Errno) := fun w =>
  match w.env.script with
  | [] => .ok none w
  | .works :: rest => .ok none { w with env := { w.env with script := rest } }
  | .fails e :: rest => .ok (some e) { w with env := { w.env with script := rest } }
  | .halts :: _ => .error .halt w

def dget (c : ClientIno) : Kern Unit :=
  modify fun w => { w with refs := { w.refs with dentry := fun x => w.refs.dentry x + if x = c then 1 else 0 } }

def dput (c : ClientIno) : Kern Unit :=
  modify fun w => { w with refs := { w.refs with dentry := fun x => w.refs.dentry x - if x = c then 1 else 0 } }

/-- The client opens a file, which holds a reference on its dentry. --/
def openFile (c : ClientIno) (flags : Nat) : Kern ClientFile := do
  dget c
  modify fun w => { w with refs := { w.refs with files := fun x => w.refs.files x + if x = c then 1 else 0 } }
  return { inode := c, pos := 0, flags := flags }

/-- `kzalloc` of a continuation object; `false` when there is no memory. --/
def kzallocCont : Kern Bool := do
  match ← ask with
  | some _ => return false
  | none =>
    modify fun w => { w with refs := { w.refs with conts := w.refs.conts + 1 } }
    return true

def kfreeCont : Kern Unit := modify fun w => { w with refs := { w.refs with conts := w.refs.conts - 1 } }

/-- `__getname` answers NULL when there is no memory, which `PTR_ERR_OR_ZERO` does not notice: the path
    is then printed through a NULL pointer. --/
def getname : Kern Unit := do
  match ← ask with
  | some _ => throw .oops
  | none => return ()

/-- The client reads an inode in when it is looked up and not cached. --/
def World.readIn (w : World) (c : ClientIno) : World :=
  if w.icache c = .absent then { w with icache := fun x => if x = c then .live else w.icache x } else w

/-- `kern_path`: the reference of the path is on the dentry found. --/
def kernPath (path : List Char) : Kern (Except Errno ClientIno) := do
  match ← ask with
  | some e => return .error e
  | none =>
    let w ← get
    match w.disk.path path with
    | none => return .error .enoent
    | some c =>
      modify (·.readIn c)
      dget c
      return .ok c

/-- The directory part of a path, with its last slash. --/
def dirname (path : List Char) : List Char := (path.reverse.dropWhile (· ≠ '/')).reverse

/-- The inode a client file system makes for a new object. --/
def Env.newInode (e : Env) (mode rdev : Nat) : ClientInode where
  attrs :=
    { mode := mode, uid := e.fsuid, gid := e.fsgid, rdev := rdev, atime := e.now, mtime := e.now, ctime := e.now,
      flags := 0, nlink := 1 }
  size := 0
  byte := fun _ => 0
  xattr := fun _ => none

/-- `S_IFREG` and the permission bits of `mode` that the file mode mask leaves. --/
def Env.fileMode (e : Env) (mode : Nat) : Nat := 0o100000 ||| (mode &&& 0o7777 &&& (0o7777 ^^^ e.umask))

/-- A world with a new empty file. --/
def World.withFile (w : World) (path : List Char) (c : ClientIno) (mode : Nat) : World :=
  { w with
    disk := (w.disk.insert c (w.env.newInode (w.env.fileMode mode) 0)).setPath path c
    icache := fun x => if x = c then .live else w.icache x }

/-- What an open with `O_CREAT` finds: the file at the path, or a new one in the client file system that
    holds its directory. --/
def World.openPath (w : World) (path : List Char) (mode : Nat) : Except Errno (ClientIno × World) :=
  match w.disk.path path with
  | some c => .ok (c, w.readIn c)
  | none =>
    match w.disk.dir (dirname path) with
    | none => .error .enoent
    | some chunk =>
      let c : ClientIno := ⟨chunk, w.env.ialloc chunk⟩
      if (w.disk.inode c).isSome then .error .enospc else .ok (c, w.withFile path c mode)

/-- `filp_open` with `O_CREAT`. --/
def filpOpen (path : List Char) (flags mode : Nat) : Kern (Except Errno ClientFile) := do
  match ← ask with
  | some e => return .error e
  | none =>
    match (← get).openPath path mode with
    | .error e => return .error e
    | .ok (c, w) =>
      set w
      return .ok (← openFile c flags)

/-- `dentry_open` of a client file. --/
def dentryOpen (c : ClientIno) (flags : Nat) : Kern (Except Errno ClientFile) := do
  match ← ask with
  | some e => return .error e
  | none => return .ok (← openFile c flags)

/-- A client inode as the kernel sees it: only once it has been read in. --/
def World.inode? (w : World) (c : ClientIno) : Option ClientInode :=
  match w.icache c with
  | .live => w.disk.inode c
  | _ => none

/-- `generic_getxattr` into a buffer of `valueStrSize`. --/
def genericGetxattr (c : ClientIno) (a : ContAttr) : Kern (Except Errno (List Char)) := do
  match ← ask with
  | some e => return .error e
  | none =>
    match (← get).inode? c with
    | none => return .error .enodata
    | some i =>
      match i.xattr a with
      | none => return .error .enodata
      | some text => if text.length ≤ valueStrSize then return .ok text else return .error .erange

def genericSetxattr (c : ClientIno) (a : ContAttr) (text : List Char) : Kern (Except Errno Unit) := do
  match ← ask with
  | some e => return .error e
  | none =>
    match (← get).inode? c with
    | none => return .error .eio
    | some _ =>
      modify fun w => { w with disk := w.disk.modify c fun i => i.setXattr a text }
      return .ok ()

/-- `iget_locked`, then `unlock_inode`: an inode that is not cached is made, but not read in. NULL only
    without memory. --/
def igetLocked (c : ClientIno) : Kern Bool := do
  match ← ask with
  | some _ => return false
  | none =>
    modify fun w =>
      if w.icache c = .absent then { w with icache := fun x => if x = c then .blank else w.icache x } else w
    return true

/-- `i_size` of a client inode in memory. --/
def World.iSize (w : World) (c : ClientIno) : Nat :=
  match w.inode? c with
  | none => 0
  | some i => i.size

/-- How many of `len` bytes the client transfers. --/
def Env.transfer (e : Env) (len : Nat) : Nat :=
  match e.limit with
  | none => len
  | some most => min len most

/-- What a client's read or write hands back: its result, the bytes read and the position it leaves. --/
structure Transfer where
  ret : Int
  buf : List UInt8
  pos : Int

/-- `read` of a client file at `pos`. --/
def clientRead (file : ClientFile) (len : Nat) (pos : Int) : Kern Transfer := do
  match ← ask with
  | some e => return ⟨e.ret, [], pos⟩
  | none =>
    let w ← get
    match w.inode? file.inode with
    | none => return ⟨Errno.eio.ret, [], pos⟩
    | some i =>
      if pos < 0 then
        return ⟨Errno.einval.ret, [], pos⟩
      else
        let buf := i.readData pos.toNat (w.env.transfer len)
        return ⟨buf.length, buf, pos + buf.length⟩

/-- `O_APPEND`. --/
def oAppend : Nat := 0o2000

/-- What `file_remove_suid` leaves of the mode of a regular file when the caller is without `CAP_FSETID`: the
    set-user-ID bit goes, and the set-group-ID bit where the group may execute the file. Where one goes,
    `setattr_copy` also takes the set-group-ID bit from a caller outside the group. --/
def Env.writtenMode (e : Env) (mode gid : Nat) : Nat :=
  let suid := mode &&& 0o4000 ≠ 0
  let sgid := mode &&& 0o2010 = 0o2010
  if mode &&& 0o170000 = 0o100000 ∧ (suid ∨ sgid) ∧ e.fsetid = false then
    if sgid ∨ e.inGroup gid = false then mode &&& 0o171777 else mode &&& 0o173777
  else mode

def ClientInode.fileRemoveSuid (i : ClientInode) (e : Env) : ClientInode :=
  { i with attrs := { i.attrs with mode := e.writtenMode i.attrs.mode i.attrs.gid } }

/-- `write` of a client file at `pos`, or at its end when it was opened with `O_APPEND`. It goes out with 0 where
    there is nothing to store, and it can still fail once the set-ID bits are gone. --/
def clientWrite (file : ClientFile) (data : List UInt8) (pos : Int) : Kern Transfer := do
  match ← ask with
  | some e => return ⟨e.ret, [], pos⟩
  | none =>
    let w ← get
    match w.inode? file.inode with
    | none => return ⟨Errno.eio.ret, [], pos⟩
    | some i =>
      let start : Int := if file.flags &&& oAppend = 0 then pos else i.size
      let stored := data.take (w.env.transfer data.length)
      if start < 0 then
        return ⟨Errno.einval.ret, [], pos⟩
      else if stored = [] then
        return ⟨0, [], pos⟩
      else if 2 ^ 63 ≤ start + stored.length then
        return ⟨Errno.efbig.ret, [], pos⟩
      else
        set { w with disk := w.disk.modify file.inode fun i => i.fileRemoveSuid w.env }
        match ← ask with
        | some e => return ⟨e.ret, [], pos⟩
        | none =>
          modify fun w => { w with
            disk := w.disk.modify file.inode fun i => i.writeData start.toNat stored w.env.now }
          return ⟨stored.length, [], start + stored.length⟩

/-- `struct iattr`, with the fields that `ia_valid` marks. --/
structure Iattr where
  mode : Option Nat
  uid : Option Nat
  gid : Option Nat
  size : Option Nat
  atime : Option Nat
  mtime : Option Nat
  ctime : Option Nat
deriving DecidableEq

/-- `setattr_copy`, which leaves the size alone. --/
def Attrs.setattrCopy (a : Attrs) (attr : Iattr) : Attrs :=
  { a with
    mode := attr.mode.getD a.mode
    uid := attr.uid.getD a.uid
    gid := attr.gid.getD a.gid
    atime := attr.atime.getD a.atime
    mtime := attr.mtime.getD a.mtime
    ctime := attr.ctime.getD a.ctime }

/-- Cutting an inode off at a size, or filling it up with zeros. --/
def ClientInode.resize (i : ClientInode) (size now : Nat) : ClientInode :=
  { i with
    attrs := { i.attrs with mtime := now, ctime := now }
    size := size
    byte := fun k => if k < i.size then i.byte k else 0 }

/-- What a client's `setattr` makes of its inode. --/
def ClientInode.setattr (i : ClientInode) (attr : Iattr) (now : Nat) : ClientInode :=
  let i :=
    match attr.size with
    | none => i
    | some size => i.resize size now
  { i with attrs := i.attrs.setattrCopy attr }

/-- `setattr` of a client inode. --/
def clientSetattr (c : ClientIno) (attr : Iattr) : Kern (Option Errno) := do
  match ← ask with
  | some e => return some e
  | none =>
    match (← get).inode? c with
    | none => return some .eio
    | some _ =>
      modify fun w => { w with disk := w.disk.modify c fun i => i.setattr attr w.env.now }
      return none

/-- `fsync` of a client file. --/
def clientFsync (c : ClientIno) (first last : Int) : Kern (Option Errno) := do
  let err ← ask
  modify fun w => { w with fsyncs := w.fsyncs ++ [⟨c, first, last, err⟩] }
  return err

end Chunkfs
