import Chunkfs.Namei
import Chunkfs.Super

/-! A mount with the references it takes (`super.c`): on the buffers of the summaries, on the mounts and dentries of the
    client file systems, on the root inode and on `sb->s_root`. -/

namespace Chunkfs
namespace Mounting

/-- How many references there are: on the buffer of a block, on the mount and the dentry found at a path, on the root
    inode, on the dentry that `d_make_root` made, and on the client inode of the root directory. --/
structure Refs where
  bh : Nat → Int
  mnt : List Char → Int
  dentry : List Char → Int
  inode : Int
  root : Int
  client : Int

/-- The super block, what the mount reads and the references on it all: `s_root` is not NULL, `s_fs_info` is the pool, and
    the pool has been freed. --/
structure Attempt where
  sb : Sb
  refs : Refs
  sRoot : Bool
  fsInfo : Bool
  poolFreed : Bool
  /-- `sb_set_blocksize` works. -/
  blocksize : Bool
  /-- `chunkfs_init_cont_data` and `chunkfs_start_inode` return. -/
  starts : Bool

/-- Why a mount does not return: an assertion, `sb->s_root` that is NULL, a device pointer that was never set, a path that
    does not fit its buffer, the root inode that could not be allocated, or a walk without end. --/
inductive Fault where
  | bug
  | nullRoot
  | wild
  | overflow
  | noInode
  | hang
deriving DecidableEq

abbrev Try := EStateM Fault Attempt

/-! ### References -/

def kzalloc : Try Bool := fun s =>
  match s.sb.memory with
  | [] => .ok true s
  | works :: rest => .ok works { s with sb := { s.sb with memory := rest } }

def changeRefs (f : Refs → Refs) : Try Unit := modify fun s => { s with refs := f s.refs }

def Refs.addBh (r : Refs) (blk : Nat) (n : Int) : Refs := { r with bh := fun b => r.bh b + if b = blk then n else 0 }

def Refs.addMnt (r : Refs) (path : List Char) (n : Int) : Refs :=
  { r with mnt := fun p => r.mnt p + if p = path then n else 0 }

def Refs.addDentry (r : Refs) (path : List Char) (n : Int) : Refs :=
  { r with dentry := fun p => r.dentry p + if p = path then n else 0 }

def sbBread (blk : Nat) : Try (Option Block) := do
  match (← get).sb.bread blk with
  | none => return none
  | some b =>
    changeRefs (·.addBh blk 1)
    return some b

def brelse (blk : Nat) : Try Unit := changeRefs (·.addBh blk (-1))

/-- `kern_path` takes a reference on the mount and one on the dentry, and `path_put` drops them. --/
def kernPath (path : List Char) : Try (Option Errno) := do
  match (← get).sb.kernPath path with
  | some e => return some e
  | none =>
    changeRefs fun r => (r.addMnt path 1).addDentry path 1
    return none

def pathPut (path : List Char) : Try Unit := changeRefs fun r => (r.addDentry path (-1)).addMnt path (-1)

def mntget (path : List Char) : Try Unit := changeRefs (·.addMnt path 1)

def mntput (path : List Char) : Try Unit := changeRefs (·.addMnt path (-1))

def dget (path : List Char) : Try Unit := changeRefs (·.addDentry path 1)

/-- `chunkfs_clear_inode` of the root inode, once it has been started. --/
def clearInode : Try Unit := changeRefs fun r => { r with client := r.client - 1 }

/-- `iput` of the root inode: the last reference evicts it. --/
def iput : Try Unit := do
  changeRefs fun r => { r with inode := r.inode - 1 }
  if (← get).refs.inode = 0 then
    clearInode

/-- `dput` of `sb->s_root`: the last reference frees the dentry, which puts its inode. --/
def dputRoot : Try Unit := do
  changeRefs fun r => { r with root := r.root - 1 }
  if (← get).refs.root = 0 then
    iput

/-! ### Chunks -/

/-- `struct chunkfs_chunk_info` with its buffer; its mount is the one found at its path. --/
structure Chunk where
  info : ChunkInfo
  bh : Nat

def Chunk.mnt (ci : Chunk) : List Char := mountPath ci.info.chunkId

def freeChunk (ci : Chunk) : Try Unit := do
  brelse ci.bh
  mntput ci.mnt

/-- The loop that frees the chunks of a device. --/
def freeChunks : List Chunk → Try Unit
  | [] => return ()
  | ci :: cs => do
    freeChunk ci
    freeChunks cs

def readClientSb (ci : ChunkInfo) : Try (Option Errno) := do
  if mountPathSize < (mountPath ci.chunkId).length + 1 then
    throw .overflow
  match ← kernPath (mountPath ci.chunkId) with
  | some e => return some e
  | none =>
    mntget (mountPath ci.chunkId)
    pathPut (mountPath ci.chunkId)
    return none

def readChunk (chunkOffset : Nat) : Try (Except Errno (Chunk × Nat)) := do
  if !(← kzalloc) then
    return .error .enomem
  let blk := chunkOffset / blkSize
  match ← sbBread blk with
  | none => return .error .eio
  | some chunk =>
    if checkChunk chunk ≠ 0 then
      brelse blk
      return .error .eio
    let ci : ChunkInfo := { flags := cFlags chunk, chunkId := cChunkId chunk }
    match ← readClientSb ci with
    | some e =>
      brelse blk
      return .error e
    | none => return .ok ({ info := ci, bh := blk }, cNextChunk chunk)

/-! ### The device and the pool -/

/-- `struct chunkfs_dev_info`; its buffer is that of `CHUNKFS_DEV_BLK`. --/
structure Dev where
  flags : Nat
  chunks : List Chunk
  rootChunk : Option Chunk

/-- `struct chunkfs_pool_info`; its buffer is that of `CHUNKFS_POOL_BLK`. --/
structure Pool where
  flags : Nat
  devs : List Dev
  rootDev : Bool

/-- The loop of `chunkfs_read_dev`: how it ended, with `retval` and the objects as it left them. --/
def readChunks : Nat → Pool → Dev → Nat → Int → Try (Except Int Int × Pool × Dev)
  | 0, _, _, _, _ => throw .hang
  | fuel + 1, pi, di, chunkOffset, retval => do
    if chunkOffset = 0 then
      return (.ok retval, pi, di)
    match ← readChunk chunkOffset with
    | .error e => return (.error e.ret, pi, di)
    | .ok (ci, next) =>
      let di := { di with chunks := di.chunks ++ [ci] }
      if ci.info.isRoot then
        if pi.rootDev then
          throw .bug
        if di.rootChunk.isSome then
          throw .bug
        readChunks fuel { pi with rootDev := true } { di with rootChunk := some ci } next 0
      else
        readChunks fuel pi di next 0

/-- What is returned, the pool as it is left, and `*dev_info` if it was set. A walk without a root chunk returns what the
    last chunk did. --/
def readDev (fuel : Nat) (pi : Pool) : Try (Int × Pool × Option Dev) := do
  if !(← kzalloc) then
    return (Errno.enomem.ret, pi, none)
  match ← sbBread devBlk with
  | none => return (Errno.eio.ret, pi, none)
  | some dev =>
    if checkDev dev ≠ 0 then
      brelse devBlk
      return (Errno.eio.ret, pi, none)
    let di : Dev := { flags := dFlags dev, chunks := [], rootChunk := none }
    match ← readChunks fuel pi di (dInnardsBegin dev) Errno.eio.ret with
    | (.error retval, pi, di) =>
      freeChunks di.chunks
      brelse devBlk
      return (retval, pi, none)
    | (.ok retval, pi, di) =>
      if di.rootChunk.isNone then
        freeChunks di.chunks
        brelse devBlk
        return (retval, pi, none)
      return (0, pi, some di)

def kfreePool : Try Unit := modify fun s => { s with poolFreed := true }

/-- A device pointer that was not set is a wild pointer. --/
def readPool (fuel : Nat) : Try (Int × Option Pool) := do
  if !(← kzalloc) then
    return (Errno.enomem.ret, none)
  match ← sbBread poolBlk with
  | none =>
    kfreePool
    return (Errno.eio.ret, none)
  | some pool =>
    if checkPool pool ≠ 0 then
      brelse poolBlk
      kfreePool
      return (Errno.eio.ret, none)
    let (retval, pi, di?) ← readDev fuel { flags := pFlags pool, devs := [], rootDev := false }
    if retval ≠ 0 then
      brelse poolBlk
      kfreePool
      return (retval, none)
    match di? with
    | none => throw .wild
    | some di => return (0, some { pi with devs := pi.devs ++ [di] })

/-! ### The root directory and the super block -/

/-- `chunkfs_init_dentry` of `sb->s_root`. --/
def initDentry : Try Bool := do
  if !(← kzalloc) then
    return false
  kzalloc

/-- `chunkfs_free_dentry` of `sb->s_root` begins with its private data. --/
def freeDentry : Try Unit := do
  if !(← get).sRoot then
    throw .nullRoot

/-- `chunkfs_read_root`, for the root chunk. `d_make_root` puts the inode itself when it fails, and takes its reference over
    when it works. --/
def readRoot (ci : Chunk) : Try Int := do
  if !(← kzalloc) then
    throw .noInode
  changeRefs fun r => { r with inode := r.inode + 1 }
  match ← kernPath rootPath with
  | some e =>
    freeDentry
    dputRoot
    iput
    return e.ret
  | none =>
    dget rootPath
    if !(← get).starts then
      throw .bug
    if ← kzalloc then
      modify fun s => { s with sRoot := true, refs := { s.refs with root := s.refs.root + 1 } }
      if ← initDentry then
        dget rootPath
        mntget ci.mnt
        pathPut rootPath
        return 0
      else
        dputRoot
        iput
        return Errno.enomem.ret
    else
      iput
      iput
      return Errno.enomem.ret

/-- What follows `chunkfs_read_pool`: `pi_root_dev->di_root_chunk` of the pool it has read. --/
def readRootOf (pi : Pool) : Try Int :=
  match pi.devs.findSome? (·.rootChunk) with
  | none => throw .wild
  | some ci => readRoot ci

def fillSuper (fuel : Nat) : Try Int := do
  if !(← get).blocksize then
    return Errno.einval.ret
  let (retval, pool?) ← readPool fuel
  if retval ≠ 0 then
    return retval
  match pool? with
  | none => throw .wild
  | some pi =>
    modify fun s => { s with fsInfo := true }
    readRootOf pi

/-- A mount that begins: nothing has been taken yet. --/
def start (sb : Sb) (blocksize starts : Bool) : Attempt where
  sb := sb
  refs := { bh := fun _ => 0, mnt := fun _ => 0, dentry := fun _ => 0, inode := 0, root := 0, client := 0 }
  sRoot := false
  fsInfo := false
  poolFreed := false
  blocksize := blocksize
  starts := starts

end Mounting
end Chunkfs
