import Chunkfs.Cont

/-! Inodes (`inode.c`): copying attributes up from a client inode and down to it, and starting a chunkfs
    inode on a client inode. -/

namespace Chunkfs
open Word

/-- A change to a chunkfs inode. --/
def modifyVnode (v : Nat) (f : Vnode → Vnode) : Kern Unit :=
  modify fun w => { w with vnode := fun x => if x = v then (w.vnode v).map f else w.vnode x }

/-- The loop of `chunkfs_copy_up_inode`: the sizes of the chain's client inodes added up, as far as the
    walk by inode number goes. --/
def totalSize : Nat → Nat → Option ClientIno → Int → Kern Int
  | 0, _, _, _ => throw .hang
  | fuel + 1, v, prev, total => do
    match ← getNextInode v prev with
    | .error _ => return total
    | .ok none => return total
    | .ok (some next) => totalSize fuel v (some next) (s64 (total + (← get).iSize next))

/-- `chunkfs_copy_up_inode`: all attributes of the client inode, and the size of the whole chain. --/
def copyUpInode (v : Nat) (client : ClientIno) : Kern Unit := do
  match (← get).inode? client with
  | none => throw .oops
  | some i =>
    modifyVnode v fun vn => { vn with attrs := i.attrs }
    let total ← totalSize (← get).env.fuel v none 0
    modifyVnode v fun vn => { vn with size := total }

/-- `copy_down_inode`. --/
def copyDownInode (v : Nat) (client : ClientIno) : Kern Unit := do
  let vn ← vnodeAt v
  modify fun w => { w with disk := w.disk.modify client fun i => { i with attrs := vn.attrs } }

/-- `chunkfs_write_inode`: the head client inode takes the attributes, and its file system writes it. --/
def writeInode (v : Nat) : Kern (Except Errno Unit) := do
  match (← vnodeAt v).client with
  | none => throw .oops
  | some client =>
    copyDownInode v client
    match ← ask with
    | some e => return .error e
    | none => return .ok ()

/-- The attributes of an inode nothing has filled in. --/
def zeroAttrs : Attrs :=
  { mode := 0, uid := 0, gid := 0, rdev := 0, atime := 0, mtime := 0, ctime := 0, flags := 0, nlink := 1 }

/-- `chunkfs_new_inode`: without memory `new_inode` answers NULL, which `is_bad_inode` reads. --/
def newInode : Kern Nat := do
  match ← ask with
  | some _ => throw .oops
  | none =>
    let w ← get
    set { w with
      vnode := fun x => if x = w.vnext then some ⟨0, zeroAttrs, 0, none⟩ else w.vnode x
      vnext := w.vnext + 1 }
    return w.vnext

/-- `chunkfs_start_inode`: the chunkfs inode takes its client inode, its number and its attributes. --/
def startInode (v : Nat) (client : ClientIno) (chunkId : Nat) : Kern Unit := do
  modifyVnode v fun vn => { vn with client := some client, ino := makeUino chunkId client.ino }
  copyUpInode v client

end Chunkfs
