import Chunkfs.Format
import Chunkfs.Kernel

/-! Reading the summaries of a device when it is mounted: the pool, its device and the device's chunks. -/

namespace Chunkfs

/-- `struct chunkfs_chunk_info`. --/
structure ChunkInfo where
  flags : Nat
  chunkId : Nat
deriving DecidableEq

/-- `CHUNKFS_IS_ROOT`. --/
def ChunkInfo.isRoot (ci : ChunkInfo) : Bool := ci.flags &&& chunkfsRoot ≠ 0

/-- `struct chunkfs_dev_info`: the chunks in list order and the root chunk. --/
structure DevInfo where
  flags : Nat
  chunks : List ChunkInfo
  rootChunk : Option ChunkInfo
deriving DecidableEq

/-- `struct chunkfs_pool_info`; `pi_root_dev` can only be the one device that is read. --/
structure PoolInfo where
  flags : Nat
  devs : List DevInfo
  rootDev : Bool
deriving DecidableEq

/-- What a mount reads: the blocks of the device, NULL where one cannot be read, what `kern_path` answers
    for the mount point of a client file system, and how the coming allocations turn out. --/
structure Sb where
  bread : Nat → Option Block
  kernPath : List Char → Option Errno
  memory : List Bool

abbrev Mount := EStateM Stop Sb

def kzalloc : Mount Bool := fun sb =>
  match sb.memory with
  | [] => .ok true sb
  | works :: rest => .ok works { sb with memory := rest }

/-- Where userland mounts the client file system of a chunk. --/
def mountPath (chunkId : Nat) : List Char := "/chunk".toList ++ Decimal.print chunkId

/-- `sizeof(path_prefix) + 10`, where `path_prefix` is a pointer. --/
def mountPathSize : Nat := 8 + 10

/-- `sprintf` writes behind its buffer when the path and its terminator do not fit. --/
def readClientSb (ci : ChunkInfo) : Mount (Option Errno) := do
  if mountPathSize < (mountPath ci.chunkId).length + 1 then
    throw .oops
  return (← get).kernPath (mountPath ci.chunkId)

/-- The chunk at an offset, and the offset of the next one. --/
def readChunk (chunkOffset : Nat) : Mount (Except Errno (ChunkInfo × Nat)) := do
  if !(← kzalloc) then
    return .error .enomem
  match (← get).bread (chunkOffset / blkSize) with
  | none => return .error .eio
  | some chunk =>
    if checkChunk chunk ≠ 0 then
      return .error .eio
    let ci : ChunkInfo := { flags := cFlags chunk, chunkId := cChunkId chunk }
    match ← readClientSb ci with
    | some e => return .error e
    | none => return .ok (ci, cNextChunk chunk)

/-- The loop of `chunkfs_read_dev`: how it ended, with `retval` and the objects as it left them. --/
def readChunks : Nat → PoolInfo → DevInfo → Nat → Int → Mount (Except Int Int × PoolInfo × DevInfo)
  | 0, _, _, _, _ => throw .hang
  | fuel + 1, pi, di, chunkOffset, retval => do
    if chunkOffset = 0 then
      return (.ok retval, pi, di)
    match ← readChunk chunkOffset with
    | .error e => return (.error e.ret, pi, di)
    | .ok (ci, next) =>
      let di := { di with chunks := di.chunks ++ [ci] }
      if ci.isRoot then
        if pi.rootDev then
          throw .bug
        if di.rootChunk.isSome then
          throw .bug
        readChunks fuel { pi with rootDev := true } { di with rootChunk := some ci } next 0
      else
        readChunks fuel pi di next 0

/-- What is returned, the pool as it is left, and `*dev_info` if it was set. --/
def readDev (fuel : Nat) (pi : PoolInfo) : Mount (Int × PoolInfo × Option DevInfo) := do
  if !(← kzalloc) then
    return (Errno.enomem.ret, pi, none)
  match (← get).bread devBlk with
  | none => return (Errno.eio.ret, pi, none)
  | some dev =>
    if checkDev dev ≠ 0 then
      return (Errno.eio.ret, pi, none)
    let di : DevInfo := { flags := dFlags dev, chunks := [], rootChunk := none }
    match ← readChunks fuel pi di (dInnardsBegin dev) Errno.eio.ret with
    | (.error retval, pi, _) => return (retval, pi, none)
    | (.ok retval, pi, di) =>
      if di.rootChunk.isNone then
        return (retval, pi, none)
      return (0, pi, some di)

/-- The pool as `chunkfs_read_pool` hands it to `chunkfs_read_dev`. --/
def newPool (flags : Nat) : PoolInfo := { flags := flags, devs := [], rootDev := false }

/-- A device pointer that was not set is a wild pointer. --/
def readPool (fuel : Nat) : Mount (Int × Option PoolInfo) := do
  if !(← kzalloc) then
    return (Errno.enomem.ret, none)
  match (← get).bread poolBlk with
  | none => return (Errno.eio.ret, none)
  | some pool =>
    if checkPool pool ≠ 0 then
      return (Errno.eio.ret, none)
    let (retval, pi, di?) ← readDev fuel (newPool (pFlags pool))
    if retval ≠ 0 then
      return (retval, none)
    match di? with
    | none => throw .oops
    | some di => return (0, some { pi with devs := pi.devs ++ [di] })

end Chunkfs
