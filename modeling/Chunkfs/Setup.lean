import Chunkfs.Lib.Text
import Chunkfs.Mkfs
import Chunkfs.Super

/-! Setting up a pool (`test.sh`). The script picks out of what `mkfs.chunkfs` prints where the client file systems begin,
    makes a loop device for each of them, with a file system on it, and mounts it where chunkfs looks for it. The loop
    devices are all on the one file that the pool is in. -/

namespace Chunkfs

/-! ### What mkfs prints -/

/-- `%0x`. --/
def hex (n : Nat) : List Char := Nat.toDigits 16 n

/-- The line of `write_block`. --/
def writingBlock (magic offset : Nat) : List Char :=
  "Writing magic ".toList ++ hex magic ++ " chksum ".toList ++ hex fixedChksum ++ " to offset ".toList ++
    Decimal.print offset

namespace ChunkSummary

/-- The lines of `write_chunk_summaries` for a chunk. --/
def writingChunk (chunk : ChunkSummary) : List Char :=
  "Writing chunk ".toList ++ Decimal.print chunk.chunkId ++ ": start ".toList ++ Decimal.print chunk.beginAt ++
    " end ".toList ++ Decimal.print chunk.endAt ++ ")".toList

def clientfsStart (chunk : ChunkSummary) : List Char := "clientfs: start ".toList ++ Decimal.print chunk.innardsBegin

/-- The lines of one round, which ends with `write_block`. --/
def lines (chunk : ChunkSummary) (offset : Nat) : List (List Char) :=
  [chunk.writingChunk, chunk.clientfsStart, writingBlock chunk.magic offset]

end ChunkSummary

/-- What mkfs has printed when it comes to its end. --/
def Mkfs.output (m : Mkfs) : List Char :=
  Text.unlines (writingBlock superMagic poolOffset :: writingBlock devMagic devOffset ::
    m.written.flatMap fun x => x.2.lines x.1)

/-! ### The loop devices -/

/-- A client file system: where it is mounted, and where in the file its loop device begins. --/
structure ClientMount where
  path : List Char
  start : Nat
deriving DecidableEq

/-- The loop over the offsets, from a `loop_num` on. --/
def mountClients : Nat → List (List Char) → List ClientMount
  | _, [] => []
  | loopNum, offset :: offsets =>
    { path := mountPath loopNum, start := Decimal.parse 64 offset } :: mountClients (loopNum + 1) offsets

def setUp (output : List Char) : List ClientMount :=
  mountClients 1 (Text.words (Text.awk "clientfs: start".toList 3 output))

/-- `mke2fs -b 4096 .. 2559`: the blocks a client file system has. --/
def clientBlocks : Nat := 2559

/-! ### The file they share -/

/-- The file, the client file systems on it, and the buffer `pi_bh` of a pool that is mounted. --/
structure Image where
  file : RegFile
  clients : List ClientMount
  poolBh : Option Block

namespace Image

/-- The device as a mount of chunkfs finds it. --/
def sb (s : Image) : Sb where
  bread blk := if (blk + 1) * blkSize ≤ s.file.size then some fun p => s.file.byte (blk * blkSize + p) else none
  kernPath p := if p ∈ s.clients.map (·.path) then none else some .enoent
  memory := []

/-- `chunkfs_commit_super` with `sync`: the buffer is written as it is. --/
def commitSuper (s : Image) : Image :=
  match s.poolBh with
  | none => s
  | some bh => { s with file := s.file.put poolOffset bh blkSize }

end Image

/-- What happens on the device: a client file system writes a block of its own, chunkfs is mounted, its super block is
    written, or it is unmounted. --/
inductive DeviceOp where
  | client (k blk : Nat) (buf : Block)
  | mount (fuel : Nat)
  | writeSuper
  | putSuper (readOnly : Bool)

/-- No client file system writes behind its last block. --/
def Image.step (s : Image) : DeviceOp → Image
  | .client k blk buf =>
    match s.clients[k]? with
    | none => s
    | some c => if blk < clientBlocks then { s with file := s.file.put (c.start + blk * blkSize) buf blkSize } else s
  | .mount fuel =>
    match readPool fuel s.sb with
    | .ok (_, some _) _ => { s with poolBh := s.sb.bread poolBlk }
    | _ => s
  | .writeSuper => s.commitSuper
  | .putSuper readOnly => { (if readOnly then s else s.commitSuper) with poolBh := none }

def Image.run (s : Image) (ops : List DeviceOp) : Image := ops.foldl Image.step s

end Chunkfs
