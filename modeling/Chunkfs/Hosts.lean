import Chunkfs.Lib.ByteOrder
import Chunkfs.Mkfs
import Chunkfs.Super

/-! `mkfs.chunkfs` and `chunkfs_read_chunk` on a host of either byte order `o`. The fields of a structure are the numbers
    that the host keeps in them, which it converts itself (`__cpu_to_le64`, `__le64_to_cpu` and `cpu_to_le64`), and a
    block is the memory of the structure. -/

namespace Chunkfs
namespace Host
open ByteOrder Word

/-! ### Writing -/

def writeChksum (o : Order) (buf : Block) : Block := o.store buf 4 4 (o.convert 4 fixedChksum)

/-- 64-bit fields behind the first 8 bytes, from field `j` on. --/
def storeWords (o : Order) (b : Block) (j : Nat) : List Nat → Block
  | [] => b
  | n :: words => storeWords o (o.store b (8 + 8 * j) 8 n) (j + 1) words

/-- The memory of a structure of two 32-bit fields, the second 0, and then 64-bit fields. --/
def structBytes (o : Order) (magic : Nat) (words : List Nat) : Block :=
  o.store (storeWords o (fun _ => 0) 0 words) 0 4 magic

def writeBlock (o : Order) (metadata : Block) (offset : Nat) : Make Unit := do
  let buf := writeChksum o metadata
  if 2 ^ 63 ≤ offset then
    throw .error
  let m ← get
  let len := min blkSize (m.maxBytes - offset)
  set { m with file := m.file.put offset buf len }
  if len < blkSize then
    throw .error

def createPoolSummary (o : Order) : PoolSummary := { magic := o.convert 4 superMagic, flags := 0 }

/-- The uuid, the end and the beginning that are copied are already swapped. --/
def createDevSummary (o : Order) (devBegin devSize : Nat) : DevSummary :=
  let devEnd := o.convert 8 (u64 (devBegin + devSize - 1))
  let innardsBegin := o.convert 8 (u64 (devBegin + blkSize))
  { magic := o.convert 4 devMagic, flags := 0, uuid := 0, beginAt := o.convert 8 devBegin, endAt := devEnd,
    innardsBegin := innardsBegin, innardsEnd := devEnd, rootChunk := innardsBegin }

def createChunkSummary (o : Order) (chunkStart chunkSize chunkId : Nat) : ChunkSummary :=
  let chunkEnd := o.convert 8 (u64 (chunkStart + chunkSize - 1))
  { magic := o.convert 4 chunkMagic, flags := 0, chunkId := o.convert 8 chunkId, beginAt := o.convert 8 chunkStart,
    endAt := chunkEnd, innardsBegin := o.convert 8 (u64 (chunkStart + blkSize)), innardsEnd := chunkEnd, nextChunk := 0 }

/-- The summary of one round. `c_end` is swapped already when 1 is added to it. --/
def nextChunkSummary (o : Order) (devEnd chunkStart chunkId : Nat) : ChunkSummary :=
  let chunk := createChunkSummary o chunkStart chunkSize chunkId
  let chunk := if chunkId = 1 then { chunk with flags := chunk.flags ||| o.convert 8 chunkfsRoot } else chunk
  if u64 (o.convert 8 chunk.endAt + chunkSize - 1) < devEnd then
    { chunk with nextChunk := o.convert 8 (u64 (chunk.endAt + 1)) }
  else chunk

def writeChunks (o : Order) : Nat → Nat → Nat → Nat → Make Unit
  | 0, _, _, _ => throw .hang
  | fuel + 1, devEnd, chunkStart, chunkId => do
    if u64 (chunkStart + chunkSize - 1) < devEnd then
      let chunk := nextChunkSummary o devEnd chunkStart chunkId
      writeBlock o (structBytes o chunk.magic chunk.words) chunkStart
      modify fun m => { m with written := m.written ++ [(chunkStart, chunk)] }
      writeChunks o fuel devEnd (u64 (chunkStart + chunkSize)) (u64 (chunkId + 1))

def writeChunkSummaries (o : Order) (fuel : Nat) (dev : DevSummary) : Make Unit :=
  writeChunks o fuel (o.convert 8 dev.endAt) (o.convert 8 dev.rootChunk) 1

def mkfsMain (o : Order) : Make Unit := do
  let m ← get
  let rawDevSize := m.file.size
  let pool := createPoolSummary o
  writeBlock o (structBytes o pool.magic [pool.flags]) poolOffset
  let rootDev := createDevSummary o devOffset (u64 (rawDevSize - devOffset - 1))
  writeBlock o (structBytes o rootDev.magic rootDev.words) devOffset
  writeChunkSummaries o (m.maxBytes / chunkSize + 2) rootDev

/-- What mkfs leaves of a file, also when it gives up. --/
def mkfs (o : Order) (file : RegFile) (maxBytes : Nat) : Mkfs :=
  Exec.final (mkfsMain o { file := file, maxBytes := maxBytes, written := [] })

/-- The block of a chunk summary. --/
def block (o : Order) (chunk : ChunkSummary) : Block := writeChksum o (structBytes o chunk.magic chunk.words)

/-! ### Reading -/

/-- A field of `w` bytes that has been converted. --/
def field (o : Order) (buf : Block) (p w : Nat) : Nat := o.convert w (o.load buf p w)

def checkChksum (o : Order) (buf : Block) : Bool := field o buf 4 4 ≠ fixedChksum

def checkMagic (o : Order) (buf : Block) (expectedMagic : Nat) : Bool := field o buf 0 4 ≠ expectedMagic

def checkMetadata (o : Order) (buf : Block) (expectedMagic : Nat) : Nat :=
  if checkMagic o buf expectedMagic then 1 else if checkChksum o buf then 2 else 0

def checkChunk (o : Order) (buf : Block) : Nat := checkMetadata o buf chunkMagic

def readChunk (o : Order) (chunkOffset : Nat) : Mount (Except Errno (ChunkInfo × Nat)) := do
  if !(← kzalloc) then
    return .error .enomem
  match (← get).bread (chunkOffset / blkSize) with
  | none => return .error .eio
  | some chunk =>
    if checkChunk o chunk ≠ 0 then
      return .error .eio
    let ci : ChunkInfo := { flags := field o chunk 8 8, chunkId := field o chunk 16 8 }
    match ← readClientSb ci with
    | some e => return .error e
    | none => return .ok (ci, field o chunk 56 8)

end Host
end Chunkfs
