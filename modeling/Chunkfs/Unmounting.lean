import Chunkfs.Mounting

/-! The unmount of a pool (`super.c`, `namei.c`), and mounts one after another: when a file system is unmounted the VFS frees
    the root dentry and evicts the root inode, and then asks for the pool to be put. -/

namespace Chunkfs
namespace Mounting

/-! ### The pool -/

/-- The chunks, and the buffer of the device. --/
def freeDev (di : Dev) : Try Unit := do
  freeChunks di.chunks
  brelse devBlk

/-- The loop that frees the devices of a pool. --/
def freeDevs : List Dev → Try Unit
  | [] => return ()
  | di :: dis => do
    freeDev di
    freeDevs dis

def freePool (pi : Pool) : Try Unit := do
  freeDevs pi.devs
  brelse poolBlk
  kfreePool

/-- `chunkfs_commit_super` comes first and writes the buffer of the pool as it was read. --/
def putSuper (pi : Pool) : Try Unit := do
  freePool pi
  modify fun s => { s with fsInfo := false }

/-! ### The root directory -/

def dput (path : List Char) : Try Unit := changeRefs (·.addDentry path (-1))

/-- The client nameidata of `sb->s_root`, filled in with the mount of the root chunk. --/
def releaseNd (ci : Chunk) : Try Unit := do
  dput rootPath
  mntput ci.mnt

def removeDentry : Try Unit := dput rootPath

/-- `chunkfs_release_dentry` of `sb->s_root`. --/
def releaseDentry (ci : Chunk) : Try Unit := do
  releaseNd ci
  removeDentry
  freeDentry

/-- What a mount finds: a super block, and whether `sb_set_blocksize` works and the root inode can be started. --/
structure Volume where
  sb : Sb
  blocksize : Bool
  starts : Bool

/-- A mount begins with the references there are; its root inode and its root dentry are new. --/
def Attempt.begin (s : Attempt) (x : Volume) : Attempt :=
  { start x.sb x.blocksize x.starts with refs := { s.refs with inode := 0, root := 0 } }

end Mounting
end Chunkfs
