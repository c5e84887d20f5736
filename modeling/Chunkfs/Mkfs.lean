import Chunkfs.Format
import Chunkfs.Lib.Exec
import Chunkfs.Lib.Word

/-! `mkfs.chunkfs`: it writes the summaries of a pool with one device to a regular file. -/

namespace Chunkfs
open Word

/-- A regular file. --/
structure RegFile where
  size : Nat
  byte : Nat → UInt8

/-- The first `len` bytes of `buf` written at `offset`; a gap behind the old end reads as zeros. --/
def RegFile.put (f : RegFile) (offset : Nat) (buf : Block) (len : Nat) : RegFile where
  size := if len = 0 then f.size else max f.size (offset + len)
  byte k :=
    if offset ≤ k ∧ k < offset + len then buf (k - offset)
    else if k < f.size then f.byte k
    else 0

/-- What mkfs works on: the file, the size no file can exceed, and the chunk summaries it has written, each
    with its offset. --/
structure Mkfs where
  file : RegFile
  maxBytes : Nat
  written : List (Nat × ChunkSummary)

/-- How mkfs gives up: `error(1, ..)`, or a loop that does not come to its end. --/
inductive Exit where
  | error
  | hang
deriving DecidableEq

abbrev Make := EStateM Exit Mkfs

/-- `lseek` refuses an offset that is negative as an `off_t`, and `write` stores no byte behind the largest
    file size. --/
def writeBlock (metadata : Block) (offset : Nat) : Make Unit := do
  let buf := writeChksum metadata
  if 2 ^ 63 ≤ offset then
    throw .error
  let m ← get
  let len := min blkSize (m.maxBytes - offset)
  set { m with file := m.file.put offset buf len }
  if len < blkSize then
    throw .error

/-- The device description is filled in first and then cleared with the rest. --/
def createPoolSummary : PoolSummary := { magic := superMagic, flags := 0 }

def createDevSummary (devBegin devSize : Nat) : DevSummary :=
  let devEnd := u64 (devBegin + devSize - 1)
  let innardsBegin := u64 (devBegin + blkSize)
  { magic := devMagic, flags := 0, uuid := 0, beginAt := devBegin, endAt := devEnd, innardsBegin := innardsBegin,
    innardsEnd := devEnd, rootChunk := innardsBegin }

def createChunkSummary (chunkStart chunkSize chunkId : Nat) : ChunkSummary :=
  let chunkEnd := u64 (chunkStart + chunkSize - 1)
  { magic := chunkMagic, flags := 0, chunkId := chunkId, beginAt := chunkStart, endAt := chunkEnd,
    innardsBegin := u64 (chunkStart + blkSize), innardsEnd := chunkEnd, nextChunk := 0 }

/-- The summary of one round: the first chunk is the root, and one that another can follow points to it. --/
def nextChunkSummary (devEnd chunkStart chunkId : Nat) : ChunkSummary :=
  let chunk := createChunkSummary chunkStart chunkSize chunkId
  let chunk := if chunkId = 1 then { chunk with flags := chunk.flags ||| chunkfsRoot } else chunk
  if u64 (chunk.endAt + chunkSize - 1) < devEnd then { chunk with nextChunk := u64 (chunk.endAt + 1) } else chunk

/-- The loop of `write_chunk_summaries`, from a chunk on. --/
def writeChunks : Nat → Nat → Nat → Nat → Make Unit
  | 0, _, _, _ => throw .hang
  | fuel + 1, devEnd, chunkStart, chunkId => do
    if u64 (chunkStart + chunkSize - 1) < devEnd then
      let chunk := nextChunkSummary devEnd chunkStart chunkId
      writeBlock chunk.bytes chunkStart
      modify fun m => { m with written := m.written ++ [(chunkStart, chunk)] }
      writeChunks fuel devEnd (u64 (chunkStart + chunkSize)) (u64 (chunkId + 1))

def writeChunkSummaries (fuel : Nat) (dev : DevSummary) : Make Unit := writeChunks fuel dev.endAt dev.rootChunk 1

/-- `main`, once the file is open. Every round but the last writes a block further on in the file, so the
    rounds that the largest file size leaves room for are enough. --/
def mkfsMain : Make Unit := do
  let m ← get
  let rawDevSize := m.file.size
  writeBlock createPoolSummary.bytes poolOffset
  let rootDev := createDevSummary devOffset (u64 (rawDevSize - devOffset - 1))
  writeBlock rootDev.bytes devOffset
  writeChunkSummaries (m.maxBytes / chunkSize + 2) rootDev

/-- What mkfs leaves of a file, also when it gives up. --/
def mkfs (file : RegFile) (maxBytes : Nat) : Mkfs :=
  Exec.final (mkfsMain { file := file, maxBytes := maxBytes, written := [] })

end Chunkfs
