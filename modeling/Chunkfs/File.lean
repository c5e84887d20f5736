import Chunkfs.Inode

/-! File operations (`file.c`): each finds the client inode that covers the file position, opens a client
    file on it, and copies position and attributes back up. The caller's position pointer `ppos` is a
    variable of the caller: it is passed in and handed back. -/

namespace Chunkfs
open Word

/-- What a read or write hands back to the caller. --/
structure IoResult where
  ret : Int
  buf : List UInt8
  ppos : Int
  file : File
deriving DecidableEq

/-- `copy_up_file`. --/
def copyUpFile (file : File) (client : ClientFile) (clientStart : Nat) : File :=
  { file with pos := s64 (client.pos + clientStart) }

def openContFile (file : File) (ppos : Int) : Kern (Except Errno Opened) := do
  match ← getContAtOffset file.dentry ppos with
  | .error e => return .error e
  | .ok cont =>
    match ← dentryOpen cont.inode file.flags with
    | .error e => return .error e
    | .ok newFile =>
      let pos := copyDownFile ppos cont.cd.start
      return .ok { ppos := pos, file := { newFile with pos := pos }, cont := cont }

def closeContFile (file : File) (client : ClientFile) (cont : Continuation) : Kern File := do
  copyUpInode file.dentry.inode client.inode
  putContinuation cont
  return copyUpFile file client cont.cd.start

/-- `chunkfs_read`: the client's result goes through an `int`. --/
def read (file : File) (len : Nat) (ppos : Int) : Kern IoResult := do
  match ← openContFile file ppos with
  | .error e => return { ret := if e = .enoent then 0 else e.ret, buf := [], ppos := ppos, file := file }
  | .ok o =>
    let t ← clientRead o.file len o.ppos
    let err := int32 t.ret
    let err := if err = Errno.enodata.ret then 0 else err
    let file ← closeContFile file o.file o.cont
    return { ret := err, buf := t.buf, ppos := t.pos, file := file }

/-- The rest of `chunkfs_write` once a client file is open. --/
def writeOpened (file : File) (data : List UInt8) (o : Opened) : Kern IoResult := do
  let t ← clientWrite o.file data o.ppos
  let file ← closeContFile file o.file o.cont
  return { ret := t.ret, buf := [], ppos := t.pos, file := file }

/-- `chunkfs_write`: where no continuation covers the position, a new one is made. --/
def write (file : File) (data : List UInt8) (ppos : Int) : Kern IoResult := do
  match ← openContFile file ppos with
  | .ok o => writeOpened file data o
  | .error e =>
    if e = .enoent then
      match ← createContinuation file ppos with
      | .error e => return { ret := e.ret, buf := [], ppos := ppos, file := file }
      | .ok o => writeOpened file data o
    else
      return { ret := e.ret, buf := [], ppos := ppos, file := file }

/-- `chunkfs_open`: the head client inode is opened and closed again. --/
def openFs (file : File) : Kern (Except Errno File) := do
  match ← openContFile file 0 with
  | .error e => return .error e
  | .ok o => return .ok (← closeContFile file o.file o.cont)

/-- The loop of `chunkfs_fsync_file`: `err` carries the walk's own status, so what a client's `fsync`
    returned is overwritten by the next step. --/
def fsyncLoop : Nat → Dentry → Int → Int → Option Continuation → Kern (Except Errno Unit)
  | 0, _, _, _, _ => throw .hang
  | fuel + 1, dentry, first, last, prev => do
    match ← getNextCont dentry prev with
    | .error e => return .error e
    | .ok none => return .ok ()
    | .ok (some next) =>
      let _ ← clientFsync next.inode first last
      fsyncLoop fuel dentry first last (some next)

def fsyncFile (file : File) (first last : Int) : Kern (Except Errno Unit) := do
  fsyncLoop (← get).env.fuel file.dentry first last none

/-- What `chunkfs_setattr` does where the client file system has no `setattr` of its own. --/
def setattrGross (client : ClientIno) (attr : Iattr) : Kern (Option Errno) := do
  -- `inode_change_ok`, then `security_inode_setattr`.
  match ← ask with
  | some e => return some e
  | none =>
    match ← ask with
    | some e => return some e
    | none =>
      modify fun w => { w with
        disk := w.disk.modify client fun i => { i with attrs := i.attrs.setattrCopy attr } }
      return none

/-- `chunkfs_setattr`: only the head client inode is changed. `own` says whether the client file system has a
    `setattr`. --/
def setattr (own : Bool) (dentry : Dentry) (attr : Iattr) : Kern (Except Errno Unit) := do
  match (← vnodeAt dentry.inode).client with
  | none => throw .oops
  | some client =>
    match ← if own then clientSetattr dentry.client attr else setattrGross client attr with
    | some e => return .error e
    | none =>
      copyUpInode dentry.inode client
      return .ok ()

end Chunkfs
