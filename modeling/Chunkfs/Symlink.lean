import Chunkfs.Inode

/-! Symbolic links (`symlink.c`). Reading a link asks the client. Following one passes the caller's nameidata through
    a nameidata of the dentry's own, of which four fields are copied down and up (`namei.c`). -/

namespace Chunkfs

/-- `readlink` of a client link: its target up to the terminator, as far as the buffer takes it. --/
def clientReadlink (c : ClientIno) (buflen : Nat) : Kern (Except Errno (List UInt8)) := do
  match ← ask with
  | some e => return .error e
  | none =>
    match (← get).inode? c with
    | none => return .error .eio
    | some i => return .ok (((i.readData 0 i.size).takeWhile (· ≠ 0)).take buflen)

/-- `chunkfs_readlink`. --/
def readlink (dentry : Dentry) (buflen : Nat) : Kern (Except Errno (List UInt8)) := do
  match (← vnodeAt dentry.inode).client with
  | none => throw .oops
  | some _ => clientReadlink dentry.client buflen

/-! ### Following links -/

section Following
variable {Name Cookie : Type}

/-- The fields of `struct nameidata` that chunkfs copies. --/
structure Nameidata (Name : Type) where
  flags : Nat
  seq : Nat
  depth : Nat
  savedNames : Nat → Name

/-- `__chunkfs_copy_nd`: of the saved names only the one at the source's depth is copied. --/
def copyNd (dst src : Nameidata Name) : Nameidata Name :=
  { flags := src.flags
    seq := src.seq
    depth := src.depth
    savedNames := fun k => if k = src.depth then src.savedNames k else dst.savedNames k }

/-- `chunkfs_follow_link`, with the nameidata of the caller and that of the dentry before and after. --/
def followLink (client : Nameidata Name → Nameidata Name × Cookie) (nd own : Nameidata Name) :
    Nameidata Name × Nameidata Name × Cookie :=
  let (own, cookie) := client (copyNd own nd)
  (copyNd nd own, own, cookie)

/-- `chunkfs_put_link`: `client` is there where the client has a `put_link`. --/
def putLink (client : Option (Nameidata Name → Cookie → Nameidata Name)) (nd own : Nameidata Name) (cookie : Cookie) :
    Nameidata Name × Nameidata Name :=
  match client with
  | none => (nd, own)
  | some put =>
    let own := put (copyNd own nd) cookie
    (copyNd nd own, own)

end Following

end Chunkfs
