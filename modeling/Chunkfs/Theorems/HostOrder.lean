import Chunkfs.Hosts
import Chunkfs.Theorems.Layout

/-! The chunk chain and the byte order of the host. Whatever mkfs converts once is on disk as on every other host, and
    reading converts it back; the offset of the next chunk is computed from an end that is converted already. -/

namespace Chunkfs
namespace Host
open ByteOrder Word
variable {o : Order} {b buf : Block} {i j k n magic E fuel maxBytes : Nat} {words : List Nat} {m : Mkfs} {f : RegFile}
  {s : ChunkSummary}

/-! ### A little-endian host -/

theorem structBytes_little (magic : Nat) (words : List Nat) :
    structBytes .little magic words = Chunkfs.structBytes magic words := by
  have hwords : ∀ (b : Block) j, storeWords .little b j words = writeWords b j words := by
    induction words with
    | nil => exact fun _ _ => rfl
    | cons n words ih => exact fun b j => ih _ _
  exact congrArg (LittleEndian.write · 0 4 magic) (hwords _ 0)

theorem writeChunks_little (fuel E start id : Nat) : writeChunks .little fuel E start id = Chunkfs.writeChunks fuel E start id := by
  induction fuel generalizing start id with
  | zero => rfl
  | succ fuel ih =>
    unfold writeChunks Chunkfs.writeChunks
    simp only [ih, structBytes_little]
    rfl

theorem mkfs_little (f : RegFile) (maxBytes : Nat) : mkfs .little f maxBytes = Chunkfs.mkfs f maxBytes := by
  have hmain : mkfsMain .little = Chunkfs.mkfsMain := by
    unfold mkfsMain Chunkfs.mkfsMain writeChunkSummaries Chunkfs.writeChunkSummaries
    simp only [structBytes_little, writeChunks_little]
    rfl
  unfold mkfs Chunkfs.mkfs
  rw [hmain]

/-! ### Reading -/

theorem field_eq (o : Order) (buf : Block) (p w : Nat) : field o buf p w = LittleEndian.read buf p w := o.convert_load buf p w

theorem checkChunk_eq (o : Order) (buf : Block) : checkChunk o buf = Chunkfs.checkChunk buf := by
  unfold checkChunk Chunkfs.checkChunk checkMetadata Chunkfs.checkMetadata checkMagic Chunkfs.checkMagic checkChksum
    Chunkfs.checkChksum
  rw [field_eq, field_eq]
  rfl

/-- Every host reads a chunk alike. --/
theorem readChunk_eq (o : Order) (offset : Nat) : readChunk o offset = Chunkfs.readChunk offset := by
  unfold readChunk Chunkfs.readChunk
  simp only [field_eq, checkChunk_eq]
  rfl

/-! ### The numbers on disk -/

/-- The numbers that the fields of a structure in the memory of a host are on disk. --/
def onDisk (o : Order) (s : ChunkSummary) : ChunkSummary where
  magic := o.convert 4 s.magic
  flags := o.convert 8 s.flags
  chunkId := o.convert 8 s.chunkId
  beginAt := o.convert 8 s.beginAt
  endAt := o.convert 8 s.endAt
  innardsBegin := o.convert 8 s.innardsBegin
  innardsEnd := o.convert 8 s.innardsEnd
  nextChunk := o.convert 8 s.nextChunk

theorem store_eq (o : Order) (b : Block) {p w n : Nat} (hn : n < 256 ^ w) :
    o.store b p w n = LittleEndian.write b p w (o.convert w n) := by
  rw [← o.store_convert, o.convert_convert hn]

theorem storeWords_eq (o : Order) (hw : ∀ n ∈ words, n < 2 ^ 64) :
    storeWords o b j words = writeWords b j (words.map (o.convert 8)) := by
  induction words generalizing b j with
  | nil => rfl
  | cons n words ih =>
    rw [storeWords, List.map_cons, writeWords, store_eq o b (hw n List.mem_cons_self),
      ih fun m hm => hw m (List.mem_cons_of_mem n hm)]

/-- The block that a host writes is the one that holds the numbers on disk. --/
theorem block_eq (hm : s.magic < 2 ^ 32) (hw : ∀ n ∈ s.words, n < 2 ^ 64) :
    block o s = Chunkfs.writeChksum (onDisk o s).bytes := by
  unfold block writeChksum structBytes
  rw [o.store_convert, store_eq o _ hm, storeWords_eq o hw]
  rfl

/-! ### The summaries -/

/-- Another chunk follows chunk `j`, as the test for its next pointer says. --/
def Linked (E j : Nat) : Prop := chunkAt j + chunkSize - 1 + chunkSize - 1 < E

instance (E j : Nat) : Decidable (Linked E j) := inferInstanceAs (Decidable (_ < _))

/-- The summary of chunk `j` on disk, when it was written on a host of order `o`. --/
def diskSummary (o : Order) (E j : Nat) : ChunkSummary :=
  { summaryOf E j with
    nextChunk := if Linked E j then u64 ((o.convert 8 (chunkAt j + chunkSize - 1) : Nat) + 1) else 0 }

/-- The same summary in the memory of the host. --/
def memorySummary (o : Order) (E j : Nat) : ChunkSummary where
  magic := o.convert 4 chunkMagic
  flags := o.convert 8 (infoOf j).flags
  chunkId := o.convert 8 (j + 1)
  beginAt := o.convert 8 (chunkAt j)
  endAt := o.convert 8 (chunkAt j + chunkSize - 1)
  innardsBegin := o.convert 8 (chunkAt j + blkSize)
  innardsEnd := o.convert 8 (chunkAt j + chunkSize - 1)
  nextChunk := o.convert 8 (diskSummary o E j).nextChunk

theorem convert_zero (o : Order) : o.convert 8 0 = 0 := by
  cases o with
  | little => rfl
  | big => decide

/-- No number of a chunk that begins low enough wraps. --/
theorem chunk_lt (hj : chunkAt j < 2 ^ 63 + 2 ^ 62) : j + 1 < 256 ^ 8 ∧ chunkAt j < 256 ^ 8 ∧
    chunkAt j + chunkSize - 1 < 256 ^ 8 ∧ chunkAt j + blkSize < 256 ^ 8 := by
  have hsize : chunkSize = 10485760 := rfl
  have hblk : blkSize = 4096 := rfl
  have hnum : j * 1 ≤ j * chunkSize := Nat.mul_le_mul_left j (by decide)
  have hat : chunkAt j = 40960 + j * chunkSize := rfl
  omega

theorem nextChunkSummary_eq (hj : chunkAt j < 2 ^ 63 + 2 ^ 62) :
    nextChunkSummary o E (chunkAt j) (j + 1) = memorySummary o E j := by
  have hpos : 40960 ≤ chunkAt j := Nat.le_add_right _ _
  have hsize : chunkSize = 10485760 := rfl
  have hblk : blkSize = 4096 := rfl
  obtain ⟨-, -, hlt, -⟩ := chunk_lt hj
  have hend : u64 (chunkAt j + chunkSize - 1) = chunkAt j + chunkSize - 1 := u64_of_eq (by omega) (by omega)
  have hin : u64 (chunkAt j + blkSize) = chunkAt j + blkSize := u64_of_eq (by omega) (by omega)
  have hcond : u64 ((chunkAt j + chunkSize - 1 : Nat) + chunkSize - 1) = chunkAt j + chunkSize - 1 + chunkSize - 1 :=
    u64_of_eq (by omega) (by omega)
  have hfirst : (j + 1 = 1) = (j = 0) := propext ⟨fun h => by omega, fun h => by omega⟩
  unfold nextChunkSummary memorySummary diskSummary infoOf Linked
  simp only [createChunkSummary, hend, hin, hfirst]
  split <;> simp only [o.convert_convert hlt, hcond] <;> split <;> rename_i hlinked <;>
    simp [convert_zero, hlinked]

theorem onDisk_memorySummary (hj : chunkAt j < 2 ^ 63 + 2 ^ 62) : onDisk o (memorySummary o E j) = diskSummary o E j := by
  obtain ⟨hid, hbegin, hend, hin⟩ := chunk_lt hj
  have hmagic : o.convert 4 (o.convert 4 chunkMagic) = chunkMagic := o.convert_convert (by decide)
  have hflags : o.convert 8 (o.convert 8 (infoOf j).flags) = (infoOf j).flags := o.convert_convert (by
    unfold infoOf
    dsimp only
    split <;> decide)
  have hnext : o.convert 8 (o.convert 8 (diskSummary o E j).nextChunk) = (diskSummary o E j).nextChunk := by
    refine o.convert_convert ?_
    unfold diskSummary
    dsimp only
    split
    · exact u64_lt _
    · decide
  unfold onDisk memorySummary
  simp only [hmagic, hflags, hnext, o.convert_convert hid, o.convert_convert hbegin, o.convert_convert hend, o.convert_convert hin]
  rfl

/-- What is in the block of chunk `j`. --/
theorem block_memorySummary (hj : chunkAt j < 2 ^ 63 + 2 ^ 62) :
    block o (memorySummary o E j) = Chunkfs.writeChksum (diskSummary o E j).bytes := by
  obtain ⟨hid, hbegin, hend, hin⟩ := chunk_lt hj
  rw [block_eq, onDisk_memorySummary hj]
  · exact o.convert_lt (w := 4) (show chunkMagic < 256 ^ 4 by decide)
  · have hlt {x : Nat} (hx : x < 256 ^ 8) : o.convert 8 x < 2 ^ 64 := o.convert_lt hx
    have hflags : (infoOf j).flags < 256 ^ 8 := by
      unfold infoOf
      dsimp only
      split <;> decide
    have hnext : (diskSummary o E j).nextChunk < 256 ^ 8 := by
      unfold diskSummary
      dsimp only
      split
      · exact u64_lt _
      · decide
    intro x hx
    simp only [ChunkSummary.words, memorySummary, List.mem_cons, List.not_mem_nil, or_false] at hx
    rcases hx with rfl | rfl | rfl | rfl | rfl | rfl | rfl
    · exact hlt hflags
    · exact hlt hid
    · exact hlt hbegin
    · exact hlt hend
    · exact hlt hin
    · exact hlt hend
    · exact hlt hnext

/-! ### The rounds -/

theorem writeBlock_cases (o : Order) (metadata : Block) (offset : Nat) (m : Mkfs) (hmax : m.maxBytes < 2 ^ 63) :
    (offset + blkSize ≤ m.maxBytes ∧ ∃ f, writeBlock o metadata offset m = .ok ⟨⟩ { m with file := f }) ∨
      (m.maxBytes < offset + blkSize ∧ ∃ f, writeBlock o metadata offset m = .error .error { m with file := f }) := by
  have hblk : blkSize = 4096 := rfl
  unfold writeBlock
  by_cases hoff : 2 ^ 63 ≤ offset
  · rw [if_pos hoff]
    exact Or.inr ⟨by omega, m.file, rfl⟩
  · rw [if_neg hoff]
    simp only [Exec.bind_apply, Exec.get_apply, Exec.set_apply]
    by_cases hroom : offset + blkSize ≤ m.maxBytes
    · refine Or.inl ⟨hroom, m.file.put offset (writeChksum o metadata) (min blkSize (m.maxBytes - offset)), ?_⟩
      rw [if_neg (by omega)]
      rfl
    · refine Or.inr ⟨by omega, m.file.put offset (writeChksum o metadata) (min blkSize (m.maxBytes - offset)), ?_⟩
      rw [if_pos (by omega)]
      rfl

/-- How many chunks from chunk `j` on the loop writes. --/
def rounds (E maxBytes : Nat) : Nat → Nat → Nat
  | 0, _ => 0
  | fuel + 1, j => if Fits E j ∧ chunkAt j + blkSize ≤ maxBytes then rounds E maxBytes fuel (j + 1) + 1 else 0

theorem rounds_fit (h : i < rounds E maxBytes fuel j) : Fits E (j + i) ∧ chunkAt (j + i) + blkSize ≤ maxBytes := by
  induction fuel generalizing i j with
  | zero => cases h
  | succ fuel ih =>
    unfold rounds at h
    split at h
    · rename_i hfirst
      cases i with
      | zero => exact hfirst
      | succ i =>
        rw [show j + (i + 1) = j + 1 + i by omega]
        exact ih (Nat.lt_of_succ_lt_succ h)
    · cases h

theorem writeChunks_eq (hj : Low j) :
    writeChunks o (fuel + 1) E (chunkAt j) (j + 1) = if Fits E j then do
      writeBlock o (structBytes o (memorySummary o E j).magic (memorySummary o E j).words) (chunkAt j)
      modify fun m => { m with written := m.written ++ [(chunkAt j, memorySummary o E j)] }
      writeChunks o fuel E (chunkAt (j + 1)) (j + 1 + 1) else pure ⟨⟩ := by
  obtain ⟨hcond, hid, hstart⟩ := round_sums hj
  rw [writeChunks]
  simp only [hcond, hstart, hid, nextChunkSummary_eq hj]
  rfl

/-- The loop writes as many chunks on every host. --/
theorem writeChunks_written (hmax : m.maxBytes < 2 ^ 63) (hj : Low j) :
    (Exec.final (writeChunks o fuel E (chunkAt j) (j + 1) m)).written =
      m.written ++ (List.range' j (rounds E m.maxBytes fuel j)).map fun i => (chunkAt i, memorySummary o E i) := by
  induction fuel generalizing j m with
  | zero => exact (List.append_nil _).symm
  | succ fuel ih =>
    rw [writeChunks_eq hj, rounds]
    by_cases hfit : Fits E j
    · rw [if_pos hfit]
      rcases writeBlock_cases o (structBytes o (memorySummary o E j).magic (memorySummary o E j).words) (chunkAt j) m hmax with
        ⟨hroom, file, hrun⟩ | ⟨hroom, file, hrun⟩
      · have hnext : Low (j + 1) := by
          have hsize : chunkSize = 10485760 := rfl
          unfold Low
          rw [chunkAt_succ]
          omega
        rw [Exec.bind_ok hrun, Exec.bind_ok (Exec.modify_apply _ _), ih (by exact hmax) hnext, if_pos ⟨hfit, hroom⟩,
          List.range'_succ, List.map_cons, List.append_assoc]
        rfl
      · rw [Exec.bind_error hrun, if_neg fun h => absurd h.2 (Nat.not_le.mpr hroom)]
        exact (List.append_nil _).symm
    · rw [if_neg hfit, if_neg fun h => hfit h.1]
      exact (List.append_nil _).symm

/-- How many chunks mkfs writes to a file of `n` bytes. --/
def chunks (n maxBytes : Nat) : Nat :=
  if devOffset + blkSize ≤ maxBytes then rounds (devOf n).endAt maxBytes (maxBytes / chunkSize + 2) 0 else 0

theorem createDevSummary_endAt (o : Order) (n : Nat) :
    o.convert 8 (createDevSummary o devOffset (u64 (n - devOffset - 1))).endAt = (devOf n).endAt :=
  o.convert_convert (u64_lt _)

theorem createDevSummary_rootChunk (o : Order) (n : Nat) :
    o.convert 8 (createDevSummary o devOffset (u64 (n - devOffset - 1))).rootChunk = chunkAt 0 :=
  o.convert_convert (u64_lt _)

theorem mkfs_written (hmax : maxBytes < 2 ^ 63) : (mkfs o f maxBytes).written =
    (List.range (chunks f.size maxBytes)).map fun i => (chunkAt i, memorySummary o (devOf f.size).endAt i) := by
  have hle : poolOffset ≤ devOffset := by decide
  unfold mkfs mkfsMain chunks
  rw [Exec.bind_ok (Exec.get_apply _)]
  dsimp only
  rcases writeBlock_cases o (structBytes o (createPoolSummary o).magic [(createPoolSummary o).flags]) poolOffset
    ⟨f, maxBytes, []⟩ hmax with ⟨hpool, file, hrun⟩ | ⟨hpool, file, hrun⟩
  · rw [Exec.bind_ok hrun]
    rcases writeBlock_cases o _ devOffset ⟨file, maxBytes, []⟩ hmax with ⟨hdev, file', hrun'⟩ | ⟨hdev, file', hrun'⟩
    · rw [Exec.bind_ok hrun', if_pos hdev]
      unfold writeChunkSummaries
      rw [createDevSummary_endAt, createDevSummary_rootChunk, List.range_eq_range']
      exact writeChunks_written (m := ⟨file', maxBytes, []⟩) hmax (show chunkAt 0 < 2 ^ 63 + 2 ^ 62 by decide)
    · rw [Exec.bind_error hrun', if_neg (Nat.not_le.mpr hdev)]
      rfl
  · rw [Exec.bind_error hrun, if_neg (Nat.not_le.mpr (Nat.lt_of_lt_of_le hpool (Nat.add_le_add_right hle blkSize)))]
    rfl

theorem chunks_fit (hmax : maxBytes < 2 ^ 63) (h : i < chunks n maxBytes) : Fits (devOf n).endAt i ∧ chunkAt i < 2 ^ 63 := by
  unfold chunks at h
  split at h
  · have hfit := rounds_fit h
    rw [Nat.zero_add] at hfit
    exact ⟨hfit.1, Nat.lt_of_le_of_lt (Nat.le_add_right _ blkSize) (Nat.lt_of_le_of_lt hfit.2 hmax)⟩
  · cases h

/-! ### The next chunk -/

theorem words_diskSummary (hj : chunkAt j < 2 ^ 63 + 2 ^ 62) : ∀ n ∈ (diskSummary o E j).words, n < 2 ^ 64 := by
  obtain ⟨hid, hbegin, hend, hin⟩ := chunk_lt hj
  intro x hx
  simp only [ChunkSummary.words, diskSummary, summaryOf, List.mem_cons, List.not_mem_nil, or_false] at hx
  rcases hx with rfl | rfl | rfl | rfl | rfl | rfl | rfl
  · unfold infoOf
    dsimp only
    split <;> decide
  · exact hid
  · exact hbegin
  · exact hend
  · exact hin
  · exact hend
  · split
    · exact u64_lt _
    · decide

/-- What mkfs means chunk `i` to say: its flags, its number, and where the next chunk is. --/
def meant (E i : Nat) : ChunkInfo × Nat := (infoOf i, if Linked E i then chunkAt i + chunkSize - 1 + 1 else 0)

/-- Reading a chunk on any host gives what the block holds. --/
theorem readChunk_block {r : Order} {sb : Sb} (hj : chunkAt j < 2 ^ 63 + 2 ^ 62) (hsb : sb.Willing)
    (hb : sb.bread (chunkAt j / blkSize) = some (block o (memorySummary o E j))) (hshort : (infoOf j).Short) :
    readChunk r (chunkAt j) sb = .ok (.ok (infoOf j, (diskSummary o E j).nextChunk)) sb := by
  rw [block_memorySummary hj] at hb
  have hw := words_diskSummary (o := o) (E := E) hj
  have hsummary := Sb.summary?_eq hb (ChunkSummary.checkChunk_bytes rfl)
  rw [ChunkSummary.cFlags_bytes hw, ChunkSummary.cChunkId_bytes hw, ChunkSummary.cNextChunk_bytes hw] at hsummary
  rw [readChunk_eq]
  exact readChunk_short hsb.kzalloc hsummary hshort (hsb.mounted _)

/-- The end of a chunk reads differently in the other order: its last byte is 255 and its first is not. --/
theorem swap_end_ne (hj : chunkAt j < 2 ^ 63 + 2 ^ 62) : swap 8 (chunkAt j + chunkSize - 1) ≠ chunkAt j + chunkSize - 1 := by
  obtain ⟨e, he⟩ : ∃ e, e = chunkAt j + chunkSize - 1 := ⟨_, rfl⟩
  have hsize : chunkSize = 10485760 := rfl
  have hat := chunkAt_eq j
  rw [← he]
  intro heq
  have hdigit := swap_digit (n := e) (show 0 < 8 by decide)
  rw [heq, pow_zero, Nat.div_one] at hdigit
  have hlast : e % 256 = 255 := by omega
  have hhead : e / 256 ^ 7 < 255 := Nat.div_lt_of_lt_mul (by omega)
  rw [hlast, Nat.mod_eq_of_lt (Nat.lt_succ_of_lt hhead)] at hdigit
  exact Nat.ne_of_lt hhead hdigit.symm

/-- The offset of the next chunk is right on disk if and only if there is none or the host is a little-endian one. --/
theorem nextChunk_iff (hj : chunkAt j < 2 ^ 63 + 2 ^ 62) :
    (diskSummary o E j).nextChunk = (meant E j).2 ↔ o = .little ∨ ¬Linked E j := by
  have hsize : chunkSize = 10485760 := rfl
  unfold diskSummary meant
  dsimp only
  by_cases hlinked : Linked E j
  · rw [if_pos hlinked, if_pos hlinked]
    cases o with
    | little => exact ⟨fun _ => Or.inl rfl, fun _ => u64_of_eq rfl (by omega)⟩
    | big =>
      refine ⟨fun heq => ?_, fun h => ?_⟩
      · have hne := swap_end_ne hj
        have hlt := swap_lt 8 (chunkAt j + chunkSize - 1)
        change u64 ((swap 8 (chunkAt j + chunkSize - 1) : Nat) + 1) = chunkAt j + chunkSize - 1 + 1 at heq
        unfold u64 at heq
        omega
      · rcases h with h | h
        · cases h
        · exact absurd hlinked h
  · rw [if_neg hlinked, if_neg hlinked]
    exact ⟨fun _ => Or.inr hlinked, fun _ => rfl⟩

/-! ### Both kinds of host -/

/-- The blocks of the chunk summaries that mkfs writes, with their offsets. --/
def blocks (o : Order) (f : RegFile) (maxBytes : Nat) : List (Nat × Block) :=
  (mkfs o f maxBytes).written.map fun s => (s.1, block o s.2)

/-- The chunk chain does not depend on the order of a host: mkfs writes the same blocks on both kinds, and whichever it
    ran on and whichever the chunk is read on, what is read is what mkfs meant. --/
structure OrderFree (f : RegFile) (maxBytes : Nat) : Prop where
  same : blocks .little f maxBytes = blocks .big f maxBytes
  reads : ∀ (o r : Order) (i : Nat) (s : Nat × ChunkSummary), (mkfs o f maxBytes).written[i]? = some s →
    ∀ sb : Sb, sb.Willing → sb.bread (s.1 / blkSize) = some (block o s.2) → (meant (devOf f.size).endAt i).1.Short →
      readChunk r s.1 sb = .ok (.ok (meant (devOf f.size).endAt i)) sb

theorem blocks_eq (hmax : maxBytes < 2 ^ 63) : blocks o f maxBytes = (List.range (chunks f.size maxBytes)).map fun i =>
    (chunkAt i, Chunkfs.writeChksum (diskSummary o (devOf f.size).endAt i).bytes) := by
  unfold blocks
  rw [mkfs_written hmax, List.map_map]
  refine List.map_congr_left fun i hi => ?_
  have hlow := (chunks_fit hmax (List.mem_range.mp hi)).2
  exact congrArg (Prod.mk (chunkAt i)) (block_memorySummary (Nat.lt_of_lt_of_le hlow (Nat.le_add_right _ _)))

/-- A chunk that is followed by another is written differently. --/
theorem not_orderFree_of_linked (hmax : maxBytes < 2 ^ 63) (hi : i < chunks f.size maxBytes)
    (hlinked : Linked (devOf f.size).endAt i) : ¬OrderFree f maxBytes := by
  intro h
  have hsame := h.same
  rw [blocks_eq hmax, blocks_eq hmax, List.map_inj_left] at hsame
  have hbytes := (Prod.mk.inj (hsame i (List.mem_range.mpr hi))).2
  have hlow : chunkAt i < 2 ^ 63 + 2 ^ 62 := Nat.lt_of_lt_of_le (chunks_fit hmax hi).2 (Nat.le_add_right _ _)
  have hnext := congrArg cNextChunk hbytes
  rw [ChunkSummary.cNextChunk_bytes (words_diskSummary hlow), ChunkSummary.cNextChunk_bytes (words_diskSummary hlow),
    (nextChunk_iff hlow).mpr (Or.inl rfl)] at hnext
  rcases (nextChunk_iff hlow).mp hnext.symm with hlittle | hnot
  · cases hlittle
  · exact hnot hlinked

theorem orderFree_iff_unlinked (hmax : maxBytes < 2 ^ 63) :
    OrderFree f maxBytes ↔ ∀ i < chunks f.size maxBytes, ¬Linked (devOf f.size).endAt i := by
  refine ⟨fun h i hi hlinked => not_orderFree_of_linked hmax hi hlinked h, fun h => ⟨?_, fun o r i s hs sb hsb hb hshort => ?_⟩⟩
  · rw [blocks_eq hmax, blocks_eq hmax]
    refine List.map_congr_left fun i hi => ?_
    have hunlinked := h i (List.mem_range.mp hi)
    have hdisk : ∀ o : Order, diskSummary o (devOf f.size).endAt i = { summaryOf (devOf f.size).endAt i with nextChunk := 0 } := by
      intro o
      unfold diskSummary
      rw [if_neg hunlinked]
    rw [hdisk, hdisk]
  · rw [mkfs_written hmax, List.getElem?_map, Option.map_eq_some_iff] at hs
    obtain ⟨j, hj, rfl⟩ := hs
    obtain ⟨hlt, rfl⟩ := List.getElem?_eq_some_iff.mp hj
    rw [List.length_range] at hlt
    rw [List.getElem_range] at hb ⊢
    have hlow : chunkAt i < 2 ^ 63 + 2 ^ 62 := Nat.lt_of_lt_of_le (chunks_fit hmax hlt).2 (Nat.le_add_right _ _)
    have hread := readChunk_block (r := r) hlow hsb hb hshort
    rw [(nextChunk_iff hlow).mpr (Or.inr (h i hlt))] at hread
    exact hread

/-- A chunk is written that another follows, unless there is no room for a chunk or at most one fits. --/
theorem unlinked_iff (hn : n ≤ maxBytes) (hmax : maxBytes < 2 ^ 63) :
    (∀ i < chunks n maxBytes, ¬Linked (devOf n).endAt i) ↔ maxBytes < 45056 ∨ 2 ≤ n ∧ n ≤ 21012480 := by
  have hsize : chunkSize = 10485760 := rfl
  have hblk : blkSize = 4096 := rfl
  have hdev : devOffset = 36864 := rfl
  have hfirst : chunkAt 0 = 40960 := rfl
  constructor
  · intro h
    by_contra hnot
    obtain ⟨hroom, hfar⟩ := not_or.mp hnot
    have hend : 21012478 < (devOf n).endAt := by
      rw [devOf_endAt]
      unfold u64
      omega
    have hlinked : Linked (devOf n).endAt 0 := by
      unfold Linked
      omega
    have hchunks : 0 < chunks n maxBytes := by
      unfold chunks
      rw [if_pos (by omega), rounds, if_pos ⟨by unfold Fits; omega, by omega⟩]
      exact Nat.succ_pos _
    exact h 0 hchunks hlinked
  · rintro hsmall i hi hlinked
    have hfit := (chunks_fit hmax hi).1
    have hat := chunkAt_eq i
    have hlow := (chunks_fit hmax hi).2
    unfold Linked at hlinked
    rcases hsmall with hsmall | ⟨h₂, hle⟩
    · unfold chunks at hi
      split at hi
      · have hroom := (rounds_fit hi).2
        rw [Nat.zero_add] at hroom
        omega
      · cases hi
    · rw [devOf_endAt_of_le h₂ (by omega)] at hlinked
      omega

/-- The chunk chain does not depend on the order of a host if and only if no chunk is followed by another. --/
theorem order_free_iff (hn : f.size ≤ maxBytes) (hmax : maxBytes < 2 ^ 63) :
    OrderFree f maxBytes ↔ maxBytes < 45056 ∨ 2 ≤ f.size ∧ f.size ≤ 21012480 :=
  (orderFree_iff_unlinked hmax).trans (unlinked_iff hn hmax)

theorem order_free_one_chunk : OrderFree (blankFile 12582912) (2 ^ 40) :=
  (order_free_iff (by decide) (by decide)).mpr (Or.inr (by decide))

/-- A device of 30 MiB, with two chunks. --/
theorem not_order_free_two_chunks : ¬OrderFree (blankFile 31457280) (2 ^ 40) :=
  not_orderFree_of_linked (i := 0) (by decide) (by decide +kernel) (by decide +kernel)

end Host
end Chunkfs
