import Chunkfs.Lib.LittleEndian

/-! The summaries on a device: pool, device and chunk. Each lies at the start of a block of its own and
    begins with a magic number and a checksum. -/

namespace Chunkfs

/-- The bytes of a block. --/
abbrev Block := Nat → UInt8

/-- `CHUNKFS_BLK_SIZE`. --/
def blkSize : Nat := 4096

/-- `CHUNKFS_POOL_BLK` and `CHUNKFS_DEV_BLK`. --/
def poolBlk : Nat := 8
def devBlk : Nat := poolBlk + 1

/-- `CHUNKFS_POOL_OFFSET` and `CHUNKFS_DEV_OFFSET`. --/
def poolOffset : Nat := poolBlk * blkSize
def devOffset : Nat := devBlk * blkSize

/-- `CHUNKFS_CHUNK_SIZE`. --/
def chunkSize : Nat := 10 * 1024 * 1024

def superMagic : Nat := 0x5afe5afe
def devMagic : Nat := 0xdeeddeed
def chunkMagic : Nat := 0xf00df00d

/-- `CHUNKFS_ROOT`. --/
def chunkfsRoot : Nat := 1

/-- What stands for a checksum. --/
def fixedChksum : Nat := 0x32323232

/-! ### Fields, at their offsets in the structures -/

def xMagic (buf : Block) : Nat := LittleEndian.read buf 0 4
def xChksum (buf : Block) : Nat := LittleEndian.read buf 4 4
def pFlags (buf : Block) : Nat := LittleEndian.read buf 8 8
def dFlags (buf : Block) : Nat := LittleEndian.read buf 8 8
def dInnardsBegin (buf : Block) : Nat := LittleEndian.read buf 40 8
def cFlags (buf : Block) : Nat := LittleEndian.read buf 8 8
def cChunkId (buf : Block) : Nat := LittleEndian.read buf 16 8
def cNextChunk (buf : Block) : Nat := LittleEndian.read buf 56 8

/-! ### Checks -/

def writeChksum (buf : Block) : Block := LittleEndian.write buf 4 4 fixedChksum

def checkChksum (buf : Block) : Bool := xChksum buf ≠ fixedChksum

def checkMagic (buf : Block) (expectedMagic : Nat) : Bool := xMagic buf ≠ expectedMagic

/-- 0 when the metadata passes. --/
def checkMetadata (buf : Block) (expectedMagic : Nat) : Nat :=
  if checkMagic buf expectedMagic then 1 else if checkChksum buf then 2 else 0

def checkPool (buf : Block) : Nat := checkMetadata buf superMagic
def checkDev (buf : Block) : Nat := checkMetadata buf devMagic
def checkChunk (buf : Block) : Nat := checkMetadata buf chunkMagic

theorem checkMetadata_eq_zero {buf : Block} {magic : Nat} :
    checkMetadata buf magic = 0 ↔ xMagic buf = magic ∧ xChksum buf = fixedChksum := by
  unfold checkMetadata checkMagic checkChksum
  by_cases hm : xMagic buf = magic <;> by_cases hc : xChksum buf = fixedChksum <;> simp [hm, hc]

/-! ### Structures as they are written -/

/-- `struct chunkfs_pool` as mkfs fills it; its device description is all zero. --/
structure PoolSummary where
  magic : Nat
  flags : Nat

/-- `struct chunkfs_dev`; the description of the next device is all zero. --/
structure DevSummary where
  magic : Nat
  flags : Nat
  uuid : Nat
  beginAt : Nat
  endAt : Nat
  innardsBegin : Nat
  innardsEnd : Nat
  rootChunk : Nat

/-- `struct chunkfs_chunk`; the name of the client file system is all zero. --/
structure ChunkSummary where
  magic : Nat
  flags : Nat
  chunkId : Nat
  beginAt : Nat
  endAt : Nat
  innardsBegin : Nat
  innardsEnd : Nat
  nextChunk : Nat
deriving DecidableEq

/-- 64-bit words behind the first 8 bytes, from word `j` on. --/
def writeWords (b : Block) (j : Nat) : List Nat → Block
  | [] => b
  | n :: words => writeWords (LittleEndian.write b (8 + 8 * j) 8 n) (j + 1) words

/-- The bytes of a structure of two 32-bit words, the second 0, and then 64-bit words. --/
def structBytes (magic : Nat) (words : List Nat) : Block :=
  LittleEndian.write (writeWords (fun _ => 0) 0 words) 0 4 magic

def PoolSummary.bytes (s : PoolSummary) : Block := structBytes s.magic [s.flags]

def DevSummary.words (s : DevSummary) : List Nat :=
  [s.flags, s.uuid, s.beginAt, s.endAt, s.innardsBegin, s.innardsEnd, s.rootChunk]

def DevSummary.bytes (s : DevSummary) : Block := structBytes s.magic s.words

def ChunkSummary.words (s : ChunkSummary) : List Nat :=
  [s.flags, s.chunkId, s.beginAt, s.endAt, s.innardsBegin, s.innardsEnd, s.nextChunk]

def ChunkSummary.bytes (s : ChunkSummary) : Block := structBytes s.magic s.words

/-! ### Reading what was written -/

section Structures
variable {b : Block} {magic i j : Nat} {words : List Nat}

theorem xMagic_structBytes (hm : magic < 2 ^ 32) : xMagic (structBytes magic words) = magic := by
  unfold xMagic structBytes
  rw [LittleEndian.read_write]
  exact Nat.mod_eq_of_lt hm

theorem word_writeWords_of_lt (h : i < j) :
    LittleEndian.read (writeWords b j words) (8 + 8 * i) 8 = LittleEndian.read b (8 + 8 * i) 8 := by
  induction words generalizing b j with
  | nil => rfl
  | cons n words ih =>
    rw [writeWords, ih (by omega)]
    exact LittleEndian.read_write_of_disjoint (Or.inl (by omega))

theorem word_writeWords (hi : i < words.length) (hw : ∀ n ∈ words, n < 2 ^ 64) :
    LittleEndian.read (writeWords b j words) (8 + 8 * (j + i)) 8 = words.getD i 0 := by
  induction words generalizing b i j with
  | nil => exact absurd hi (Nat.not_lt_zero i)
  | cons n words ih =>
    rw [writeWords]
    cases i with
    | succ i =>
      rw [show j + (i + 1) = j + 1 + i by omega]
      exact ih (Nat.lt_of_succ_lt_succ hi) fun m hm => hw m (List.mem_cons_of_mem n hm)
    | zero =>
      have hn : n < 256 ^ 8 := hw n List.mem_cons_self
      rw [Nat.add_zero j, word_writeWords_of_lt (i := j) (by omega), LittleEndian.read_write, Nat.mod_eq_of_lt hn]
      rfl

theorem word_structBytes (hi : i < words.length) (hw : ∀ n ∈ words, n < 2 ^ 64) :
    LittleEndian.read (structBytes magic words) (8 + 8 * i) 8 = words.getD i 0 := by
  unfold structBytes
  rw [LittleEndian.read_write_of_disjoint (Or.inr (by omega))]
  have := word_writeWords (b := fun _ => 0) (j := 0) hi hw
  rwa [Nat.zero_add] at this

/-- The checksum lies between the magic number and the words. --/
theorem checkMetadata_writeChksum (hm : magic < 2 ^ 32) :
    checkMetadata (writeChksum (structBytes magic words)) magic = 0 := by
  have hx : xMagic (writeChksum (structBytes magic words)) = xMagic (structBytes magic words) :=
    LittleEndian.read_write_of_disjoint (Or.inl (by omega))
  refine checkMetadata_eq_zero.mpr ⟨hx.trans (xMagic_structBytes hm), ?_⟩
  unfold xChksum writeChksum
  rw [LittleEndian.read_write]
  decide

theorem word_writeChksum (hi : i < words.length) (hw : ∀ n ∈ words, n < 2 ^ 64) :
    LittleEndian.read (writeChksum (structBytes magic words)) (8 + 8 * i) 8 = words.getD i 0 :=
  (LittleEndian.read_write_of_disjoint (Or.inr (by omega))).trans (word_structBytes hi hw)

theorem PoolSummary.checkPool_bytes {s : PoolSummary} (hm : s.magic = superMagic) :
    checkPool (writeChksum s.bytes) = 0 := by
  unfold checkPool PoolSummary.bytes
  rw [hm]
  exact checkMetadata_writeChksum (by decide)

theorem DevSummary.checkDev_bytes {s : DevSummary} (hm : s.magic = devMagic) : checkDev (writeChksum s.bytes) = 0 := by
  unfold checkDev DevSummary.bytes
  rw [hm]
  exact checkMetadata_writeChksum (by decide)

theorem ChunkSummary.checkChunk_bytes {s : ChunkSummary} (hm : s.magic = chunkMagic) :
    checkChunk (writeChksum s.bytes) = 0 := by
  unfold checkChunk ChunkSummary.bytes
  rw [hm]
  exact checkMetadata_writeChksum (by decide)

theorem DevSummary.dInnardsBegin_bytes {s : DevSummary} (hw : ∀ n ∈ s.words, n < 2 ^ 64) :
    dInnardsBegin (writeChksum s.bytes) = s.innardsBegin :=
  word_writeChksum (i := 4) (show 4 < 7 by decide) hw

namespace ChunkSummary
variable {s : ChunkSummary} (hw : ∀ n ∈ s.words, n < 2 ^ 64)
include hw

theorem cFlags_bytes : cFlags (writeChksum s.bytes) = s.flags := word_writeChksum (i := 0) (show 0 < 7 by decide) hw

theorem cChunkId_bytes : cChunkId (writeChksum s.bytes) = s.chunkId :=
  word_writeChksum (i := 1) (show 1 < 7 by decide) hw

theorem cNextChunk_bytes : cNextChunk (writeChksum s.bytes) = s.nextChunk :=
  word_writeChksum (i := 6) (show 6 < 7 by decide) hw

end ChunkSummary

end Structures

end Chunkfs
