import Chunkfs.Mkfs
import Chunkfs.Theorems.Mount

/-! What `mkfs.chunkfs` leaves and what mounting makes of it. mkfs asks twice whether another chunk fits: the
    loop condition decides which summaries are written, the condition on the next pointer where they lead. -/

namespace Chunkfs
open Word
variable {f : RegFile} {m m' : Mkfs} {buf : Block} {offset len i j k E : Nat}

/-! ### Blocks of a file -/

/-- The file has a block at an offset. --/
structure RegFile.HasBlock (f : RegFile) (offset : Nat) (buf : Block) : Prop where
  size : offset + blkSize ≤ f.size
  byte : ∀ p < blkSize, f.byte (offset + p) = buf p

theorem RegFile.hasBlock_put (f : RegFile) (offset : Nat) (buf : Block) :
    (f.put offset buf blkSize).HasBlock offset buf := by
  refine ⟨?_, fun p hp => ?_⟩
  · simp only [put]
    rw [if_neg (by decide)]
    exact le_max_right _ _
  · simp only [put]
    rw [if_pos (by omega), Nat.add_sub_cancel_left]

theorem RegFile.HasBlock.put {other : Nat} {b : Block} (h : f.HasBlock other b) (hlen : len ≤ blkSize)
    (hd : other + blkSize ≤ offset ∨ offset + blkSize ≤ other) : (f.put offset buf len).HasBlock other b := by
  have hs := h.size
  refine ⟨?_, fun p hp => ?_⟩
  · simp only [RegFile.put]
    split <;> omega
  · simp only [RegFile.put]
    rw [if_neg (by omega), if_pos (by omega)]
    exact h.byte p hp

/-- The device that a file holds, with every client file system mounted. --/
def RegFile.sb (f : RegFile) : Sb where
  bread blk := if (blk + 1) * blkSize ≤ f.size then some fun p => f.byte (blk * blkSize + p) else none
  kernPath _ := none
  memory := []

theorem RegFile.sb_willing (f : RegFile) : f.sb.Willing := ⟨fun _ => rfl, rfl⟩

/-- A field inside a block reads as it does in the block that was written. --/
theorem RegFile.HasBlock.bread {blk : Nat} (h : f.HasBlock (blk * blkSize) buf) :
    ∃ b, f.sb.bread blk = some b ∧ ∀ p w, p + w ≤ blkSize → LittleEndian.read b p w = LittleEndian.read buf p w := by
  have hs : (blk + 1) * blkSize ≤ f.size := by
    rw [Nat.succ_mul]
    exact h.size
  refine ⟨_, if_pos hs, fun p w hw => ?_⟩
  exact LittleEndian.read_congr fun q hq hqw => h.byte q (by omega)

theorem checkMetadata_congr {b : Block} {magic : Nat}
    (h : ∀ p w, p + w ≤ blkSize → LittleEndian.read b p w = LittleEndian.read buf p w) :
    checkMetadata b magic = checkMetadata buf magic := by
  unfold checkMetadata checkMagic checkChksum xMagic xChksum
  rw [h 0 4 (by decide), h 4 4 (by decide)]

/-! ### Writing blocks -/

theorem writeBlock_ok {metadata : Block} (ho : offset < 2 ^ 63) (hmax : offset + blkSize ≤ m.maxBytes) :
    writeBlock metadata offset m =
      .ok ⟨⟩ { m with file := m.file.put offset (writeChksum metadata) blkSize } := by
  have hlen : min blkSize (m.maxBytes - offset) = blkSize := by omega
  unfold writeBlock
  rw [if_neg (Nat.not_le.mpr ho)]
  simp only [Exec.bind_apply, Exec.get_apply, Exec.set_apply, hlen, Nat.lt_irrefl, ↓reduceIte]
  rfl

/-- A refused write leaves the blocks before it alone. --/
theorem writeBlock_fails (metadata : Block) (hmax : m.maxBytes < offset + blkSize) :
    ∃ m', writeBlock metadata offset m = .error .error m' ∧ m'.written = m.written ∧
      ∀ other b, m.file.HasBlock other b → other + blkSize ≤ offset → m'.file.HasBlock other b := by
  unfold writeBlock
  by_cases ho : 2 ^ 63 ≤ offset
  · rw [if_pos ho]
    exact ⟨m, rfl, rfl, fun other b hb _ => hb⟩
  · rw [if_neg ho]
    have hlen : min blkSize (m.maxBytes - offset) < blkSize := by
      unfold blkSize at hmax ⊢
      omega
    refine ⟨{ m with file := m.file.put offset (writeChksum metadata) (min blkSize (m.maxBytes - offset)) }, ?_, rfl,
      fun other b hb hd => hb.put hlen.le (Or.inl hd)⟩
    simp only [Exec.bind_apply, Exec.get_apply, Exec.set_apply, hlen, ↓reduceIte]
    rfl

/-! ### The summaries -/

/-- Where chunk `j` begins, counting from 0. --/
def chunkAt (j : Nat) : Nat := 40960 + j * chunkSize

theorem chunkAt_succ (j : Nat) : chunkAt (j + 1) = chunkAt j + chunkSize := by
  unfold chunkAt
  rw [Nat.succ_mul, ← Nat.add_assoc]

theorem chunkAt_add_le (h : i < j) : chunkAt i + chunkSize ≤ chunkAt j := by
  have : i * chunkSize + chunkSize ≤ j * chunkSize := by
    rw [← Nat.succ_mul]
    exact Nat.mul_le_mul_right chunkSize h
  unfold chunkAt
  omega

/-- Chunk `j` ends before the device does: the condition of the loop. --/
def Fits (E j : Nat) : Prop := chunkAt j + chunkSize - 1 < E

instance (E j : Nat) : Decidable (Fits E j) := inferInstanceAs (Decidable (_ < _))

/-- Where the summary of chunk `j` leads: the other condition. --/
def nextOf (E j : Nat) : Nat := if chunkAt j + chunkSize - 1 + chunkSize - 1 < E then chunkAt (j + 1) else 0

/-- What mounting reads of chunk `j`. --/
def infoOf (j : Nat) : ChunkInfo := { flags := if j = 0 then chunkfsRoot else 0, chunkId := j + 1 }

/-- The summary mkfs writes for chunk `j`. --/
def summaryOf (E j : Nat) : ChunkSummary where
  magic := chunkMagic
  flags := (infoOf j).flags
  chunkId := j + 1
  beginAt := chunkAt j
  endAt := chunkAt j + chunkSize - 1
  innardsBegin := chunkAt j + blkSize
  innardsEnd := chunkAt j + chunkSize - 1
  nextChunk := nextOf E j

theorem u64_of_eq {x : Int} {n : Nat} (h : x = n) (hn : n < 2 ^ 64) : u64 x = n := by
  rw [h, u64_natCast hn]

/-- Nothing wraps below the largest offsets a file can have. --/
theorem nextChunkSummary_eq (hj : chunkAt j < 2 ^ 63 + 2 ^ 62) :
    nextChunkSummary E (chunkAt j) (j + 1) = summaryOf E j := by
  have hpos : 40960 ≤ chunkAt j := Nat.le_add_right _ _
  have hsize : chunkSize = 10485760 := rfl
  have hblk : blkSize = 4096 := rfl
  have hend : u64 (chunkAt j + chunkSize - 1) = chunkAt j + chunkSize - 1 := u64_of_eq (by omega) (by omega)
  have hin : u64 (chunkAt j + blkSize) = chunkAt j + blkSize := u64_of_eq (by omega) (by omega)
  have hnext : u64 ((chunkAt j + chunkSize - 1 : Nat) + 1) = chunkAt (j + 1) := by
    rw [chunkAt_succ]
    exact u64_of_eq (by omega) (by omega)
  have hcond : u64 ((chunkAt j + chunkSize - 1 : Nat) + chunkSize - 1) = chunkAt j + chunkSize - 1 + chunkSize - 1 :=
    u64_of_eq (by omega) (by omega)
  have hfirst : (j + 1 = 1) = (j = 0) := propext ⟨fun h => by omega, fun h => by omega⟩
  unfold nextChunkSummary summaryOf nextOf infoOf
  simp only [createChunkSummary, hend, hin, hfirst]
  split <;> simp only [hcond, hnext] <;> split <;> rfl

/-! ### The loop -/

/-- The pool and device summaries and those of the first `j` chunks are in the file. --/
structure Wrote (dev : DevSummary) (m : Mkfs) (j : Nat) : Prop where
  written : m.written = (List.range j).map fun i => (chunkAt i, summaryOf dev.endAt i)
  chunk : ∀ i < j, m.file.HasBlock (chunkAt i) (writeChksum (summaryOf dev.endAt i).bytes)
  pool : m.file.HasBlock poolOffset (writeChksum createPoolSummary.bytes)
  dev : m.file.HasBlock devOffset (writeChksum dev.bytes)

theorem blkSize_le_chunkSize : blkSize ≤ chunkSize := by decide

theorem devOffset_le_chunkAt (j : Nat) : devOffset + blkSize ≤ chunkAt j := Nat.le_add_right 40960 _

/-- The round of chunk `j`. --/
theorem Wrote.put {dev : DevSummary} (h : Wrote dev m j) :
    Wrote dev { m with
      file := m.file.put (chunkAt j) (writeChksum (summaryOf dev.endAt j).bytes) blkSize
      written := m.written ++ [(chunkAt j, summaryOf dev.endAt j)] } (j + 1) := by
  have hdev := devOffset_le_chunkAt j
  have hpool : poolOffset ≤ devOffset := by decide
  refine ⟨?_, fun i hi => ?_, h.pool.put le_rfl (Or.inl (by omega)), h.dev.put le_rfl (Or.inl hdev)⟩
  · show m.written ++ _ = _
    rw [h.written, List.range_succ, List.map_append]
    rfl
  · rcases Nat.lt_succ_iff_lt_or_eq.mp hi with hlt | rfl
    · have hle := chunkAt_add_le hlt
      have := blkSize_le_chunkSize
      exact (h.chunk i hlt).put le_rfl (Or.inl (by omega))
    · exact RegFile.hasBlock_put ..

/-- No offset the loop computes for chunk `j` wraps. --/
def Low (j : Nat) : Prop := chunkAt j < 2 ^ 63 + 2 ^ 62

section Rounds
variable {dev : DevSummary} {fuel : Nat}

/-- The sums of the loop at chunk `j`. --/
theorem round_sums (hj : Low j) : u64 (chunkAt j + chunkSize - 1) = chunkAt j + chunkSize - 1 ∧
    u64 ((j + 1 : Nat) + 1) = j + 1 + 1 ∧ u64 (chunkAt j + chunkSize) = chunkAt (j + 1) := by
  unfold Low at hj
  have hsize : chunkSize = 10485760 := rfl
  have hpos : 40960 ≤ chunkAt j := Nat.le_add_right _ _
  have hnum : j ≤ chunkAt j := by
    have : j * 1 ≤ j * chunkSize := Nat.mul_le_mul_left j (by decide)
    unfold chunkAt
    omega
  refine ⟨u64_of_eq (by omega) (by omega), u64_of_eq (by omega) (by omega), ?_⟩
  rw [chunkAt_succ]
  exact u64_of_eq (by omega) (by omega)

theorem writeChunks_eq (hj : Low j) :
    writeChunks (fuel + 1) E (chunkAt j) (j + 1) = if Fits E j then do
      writeBlock (summaryOf E j).bytes (chunkAt j)
      modify fun m => { m with written := m.written ++ [(chunkAt j, summaryOf E j)] }
      writeChunks fuel E (chunkAt (j + 1)) (j + 1 + 1) else pure ⟨⟩ := by
  obtain ⟨hcond, hid, hstart⟩ := round_sums hj
  rw [writeChunks]
  simp only [hcond, hstart, hid, nextChunkSummary_eq hj]
  rfl

theorem writeChunks_done (hj : Low j) (hfit : ¬Fits E j) :
    writeChunks (fuel + 1) E (chunkAt j) (j + 1) m = .ok ⟨⟩ m := by
  rw [writeChunks_eq hj, if_neg hfit]
  rfl

theorem writeChunks_refused (fuel : Nat) (h : Wrote dev m j) (hj : Low j) (hfit : Fits dev.endAt j)
    (hroom : m.maxBytes < chunkAt j + blkSize) :
    ∃ m', writeChunks (fuel + 1) dev.endAt (chunkAt j) (j + 1) m = .error .error m' ∧ Wrote dev m' j := by
  obtain ⟨m', hrun, hwritten, hkeep⟩ := writeBlock_fails (summaryOf dev.endAt j).bytes hroom
  have hdev := devOffset_le_chunkAt j
  have hpool : poolOffset ≤ devOffset := by decide
  refine ⟨m', ?_, hwritten.trans h.written, fun i hi => ?_, hkeep _ _ h.pool (by omega), hkeep _ _ h.dev hdev⟩
  · rw [writeChunks_eq hj, if_pos hfit, Exec.bind_error hrun]
  · have hle := chunkAt_add_le hi
    have := blkSize_le_chunkSize
    exact hkeep _ _ (h.chunk i hi) (by omega)

theorem writeChunks_round (hj : Low j) (hfit : Fits E j) (hmax : m.maxBytes < 2 ^ 63)
    (hroom : chunkAt j + blkSize ≤ m.maxBytes) :
    writeChunks (fuel + 1) E (chunkAt j) (j + 1) m = writeChunks fuel E (chunkAt (j + 1)) (j + 1 + 1) { m with
      file := m.file.put (chunkAt j) (writeChksum (summaryOf E j).bytes) blkSize
      written := m.written ++ [(chunkAt j, summaryOf E j)] } := by
  rw [writeChunks_eq hj, if_pos hfit, Exec.bind_ok (writeBlock_ok (by omega) hroom)]
  rfl

/-- How the loop ends that was entered at chunk `j`: at a chunk `k` that does not fit, or at one the file has
    no room for. --/
structure Ends (dev : DevSummary) (m : Mkfs) (fuel j k : Nat) (m' : Mkfs) : Prop where
  le : j ≤ k
  wrote : Wrote dev m' k
  low : Low k
  fits : ∀ i, j ≤ i → i < k → Fits dev.endAt i
  ends : writeChunks (fuel + 1) dev.endAt (chunkAt j) (j + 1) m = .ok ⟨⟩ m' ∧ ¬Fits dev.endAt k ∨
    writeChunks (fuel + 1) dev.endAt (chunkAt j) (j + 1) m = .error .error m' ∧ Fits dev.endAt k ∧
      m.maxBytes < chunkAt k + blkSize

theorem ends_here (h : Wrote dev m j) (hj : Low j) (hstop : ¬Fits dev.endAt j ∨ m.maxBytes < chunkAt j + blkSize) :
    ∃ k m', Ends dev m fuel j k m' := by
  have hnone : ∀ i, j ≤ i → i < j → Fits dev.endAt i := fun i hi hij => absurd hij (Nat.not_lt.mpr hi)
  by_cases hfit : Fits dev.endAt j
  · have hroom := hstop.resolve_left (not_not.mpr hfit)
    obtain ⟨m', hrun, hw⟩ := writeChunks_refused _ h hj hfit hroom
    exact ⟨j, m', le_rfl, hw, hj, hnone, Or.inr ⟨hrun, hfit, hroom⟩⟩
  · exact ⟨j, m, le_rfl, h, hj, hnone, Or.inl ⟨writeChunks_done hj hfit, hfit⟩⟩

theorem writeChunks_ends (hmax : m.maxBytes < 2 ^ 63) (h : Wrote dev m j) (hj : Low j)
    (hfuel : m.maxBytes < chunkAt (j + fuel)) : ∃ k m', Ends dev m fuel j k m' := by
  induction fuel generalizing j m with
  | zero => exact ends_here h hj (Or.inr (Nat.lt_add_right blkSize hfuel))
  | succ fuel ih =>
    by_cases hfit : Fits dev.endAt j
    swap
    · exact ends_here h hj (Or.inl hfit)
    by_cases hroom : chunkAt j + blkSize ≤ m.maxBytes
    swap
    · exact ends_here h hj (Or.inr (Nat.not_le.mp hroom))
    have hj' : Low (j + 1) := by
      have hsize : chunkSize = 10485760 := rfl
      unfold Low
      rw [chunkAt_succ]
      omega
    obtain ⟨k, m', hk⟩ := ih (by exact hmax) h.put hj' (by
      rw [Nat.add_assoc, Nat.add_comm 1 fuel]
      exact hfuel)
    refine ⟨k, m', Nat.le_of_succ_le hk.le, hk.wrote, hk.low, fun i hi hik => ?_, ?_⟩
    · rcases Nat.eq_or_lt_of_le hi with rfl | hlt
      · exact hfit
      · exact hk.fits i hlt hik
    · rw [writeChunks_round hj hfit hmax hroom]
      exact hk.ends

end Rounds

/-! ### What mkfs leaves -/

/-- The device summary mkfs writes to a file of `n` bytes; its end wraps for an empty file and for one of a
    single byte. --/
def devOf (n : Nat) : DevSummary := createDevSummary devOffset (u64 (n - devOffset - 1))

theorem devOf_rootChunk (n : Nat) : (devOf n).rootChunk = chunkAt 0 := rfl

theorem devOf_endAt (n : Nat) : (devOf n).endAt = u64 (n - 2) := by
  have hoff : devOffset = 36864 := rfl
  show u64 (devOffset + (u64 (n - devOffset - 1) : Nat) - 1) = _
  unfold u64
  omega

/-- The chunk summaries written are those of the first `k` chunks: all chunks that fit, or all the file has
    room for. --/
structure Laid (n maxBytes : Nat) (m : Mkfs) (k : Nat) : Prop where
  wrote : Wrote (devOf n) m k
  low : Low k
  fits : ∀ i < k, Fits (devOf n).endAt i
  last : ¬Fits (devOf n).endAt k ∨ maxBytes < chunkAt k + blkSize

theorem mkfsMain_eq (m : Mkfs) : mkfsMain m =
    (writeBlock createPoolSummary.bytes poolOffset >>= fun _ =>
      writeBlock (devOf m.file.size).bytes devOffset >>= fun _ =>
        writeChunks (m.maxBytes / chunkSize + 1 + 1) (devOf m.file.size).endAt (chunkAt 0) (0 + 1)) m := by
  rw [← devOf_rootChunk m.file.size, Nat.zero_add, Nat.add_assoc _ 1 1]
  unfold mkfsMain writeChunkSummaries devOf
  rw [Exec.bind_ok (Exec.get_apply m)]

/-- mkfs comes to its loop, unless there is no room for the pool and device summaries. --/
theorem mkfsMain_start (f : RegFile) (maxBytes : Nat) :
    (maxBytes < devOffset + blkSize ∧ ∃ m', mkfsMain ⟨f, maxBytes, []⟩ = .error .error m' ∧ m'.written = []) ∨
      ∃ m₁, m₁.maxBytes = maxBytes ∧ Wrote (devOf f.size) m₁ 0 ∧ mkfsMain ⟨f, maxBytes, []⟩ =
        writeChunks (maxBytes / chunkSize + 1 + 1) (devOf f.size).endAt (chunkAt 0) (0 + 1) m₁ := by
  rw [mkfsMain_eq]
  have hle : poolOffset ≤ devOffset := by decide
  by_cases hpool : poolOffset + blkSize ≤ maxBytes
  swap
  · obtain ⟨m', hrun, hwritten, -⟩ :=
      writeBlock_fails (m := ⟨f, maxBytes, []⟩) createPoolSummary.bytes (Nat.not_le.mp hpool)
    rw [Exec.bind_error hrun]
    exact Or.inl ⟨by omega, m', rfl, hwritten⟩
  rw [Exec.bind_ok (writeBlock_ok (by decide) hpool)]
  by_cases hroom : devOffset + blkSize ≤ maxBytes
  swap
  · obtain ⟨m', hrun, hwritten, -⟩ :=
      writeBlock_fails (m := ⟨f.put poolOffset (writeChksum createPoolSummary.bytes) blkSize, maxBytes, []⟩)
        (devOf f.size).bytes (Nat.not_le.mp hroom)
    rw [Exec.bind_error hrun]
    exact Or.inl ⟨by omega, m', rfl, hwritten⟩
  rw [Exec.bind_ok (writeBlock_ok (by decide) hroom)]
  have hstart : Wrote (devOf f.size) ⟨(f.put poolOffset (writeChksum createPoolSummary.bytes) blkSize).put devOffset
      (writeChksum (devOf f.size).bytes) blkSize, maxBytes, []⟩ 0 :=
    ⟨rfl, fun i hi => absurd hi (Nat.not_lt_zero i), (RegFile.hasBlock_put ..).put le_rfl (Or.inl (by decide)),
      RegFile.hasBlock_put ..⟩
  exact Or.inr ⟨_, rfl, hstart, rfl⟩

/-- mkfs gives up before its loop, or the loop lays the chunks and ends at one that does not fit or cannot be
    written. --/
theorem mkfsMain_cases {maxBytes : Nat} (hmax : maxBytes < 2 ^ 63) :
    (maxBytes < devOffset + blkSize ∧ ∃ m', mkfsMain ⟨f, maxBytes, []⟩ = .error .error m' ∧ m'.written = []) ∨
      ∃ k m', Laid f.size maxBytes m' k ∧ (mkfsMain ⟨f, maxBytes, []⟩ = .ok ⟨⟩ m' ∧ ¬Fits (devOf f.size).endAt k ∨
        mkfsMain ⟨f, maxBytes, []⟩ = .error .error m') := by
  rcases mkfsMain_start f maxBytes with hstop | ⟨m₁, hbytes, hstart, hrun⟩
  · exact Or.inl hstop
  rw [hrun]
  have hfuel : m₁.maxBytes < chunkAt (0 + (maxBytes / chunkSize + 1)) := by
    have := Nat.lt_div_mul_add (a := maxBytes) (show 0 < chunkSize by decide)
    rw [Nat.zero_add, chunkAt_succ, hbytes]
    unfold chunkAt
    omega
  obtain ⟨k, m', he⟩ := writeChunks_ends (hbytes.trans_lt hmax) hstart (show chunkAt 0 < 2 ^ 63 + 2 ^ 62 by decide) hfuel
  have hlast : ¬Fits (devOf f.size).endAt k ∨ maxBytes < chunkAt k + blkSize := by
    rcases he.ends with ⟨-, hfit⟩ | ⟨-, -, hfull⟩
    · exact Or.inl hfit
    · exact Or.inr (hbytes ▸ hfull)
  refine Or.inr ⟨k, m', ⟨he.wrote, he.low, fun i hi => he.fits i (Nat.zero_le i) hi, hlast⟩, ?_⟩
  rcases he.ends with ⟨hrun, hfit⟩ | ⟨hrun, -⟩
  · exact Or.inl ⟨hrun, hfit⟩
  · exact Or.inr hrun

/-- mkfs comes to its loop, or writes no chunk summary. --/
theorem mkfs_laid {maxBytes : Nat} (hmax : maxBytes < 2 ^ 63) (hw : (mkfs f maxBytes).written ≠ []) :
    ∃ k, 0 < k ∧ Laid f.size maxBytes (mkfs f maxBytes) k := by
  unfold mkfs at hw ⊢
  rcases mkfsMain_cases (f := f) hmax with ⟨-, m', hrun, hnone⟩ | ⟨k, m', hlaid, hrun⟩
  · rw [hrun] at hw
    exact absurd hnone hw
  · have hfinal : Exec.final (mkfsMain ⟨f, maxBytes, []⟩) = m' := by
      rcases hrun with ⟨hrun, -⟩ | hrun <;> rw [hrun] <;> rfl
    rw [hfinal] at hw ⊢
    refine ⟨k, Nat.pos_of_ne_zero ?_, hlaid⟩
    rintro rfl
    exact hw hlaid.wrote.written

/-! ### Mounting it -/

section Mounting
variable {n maxBytes o next : Nat} {ps : List Nat} {sb : Sb}

theorem summaryOf_words_lt (hj : Low j) : ∀ x ∈ (summaryOf E j).words, x < 2 ^ 64 := by
  unfold Low at hj
  have hsize : chunkSize = 10485760 := rfl
  have hblk : blkSize = 4096 := rfl
  have hnum : j ≤ chunkAt j := by
    have : j * 1 ≤ j * chunkSize := Nat.mul_le_mul_left j (by decide)
    unfold chunkAt
    omega
  have hflags : (infoOf j).flags ≤ 1 := by
    simp only [infoOf, chunkfsRoot]
    split <;> omega
  have hnext : nextOf E j ≤ chunkAt j + chunkSize := by
    unfold nextOf
    split
    · rw [chunkAt_succ]
    · exact Nat.zero_le _
  simp only [summaryOf, ChunkSummary.words, List.mem_cons, List.not_mem_nil, or_false, forall_eq_or_imp, forall_eq]
  omega

theorem devOf_words_lt (n : Nat) : ∀ x ∈ (devOf n).words, x < 2 ^ 64 := by
  have hend := u64_lt (n - 2)
  rw [← devOf_endAt] at hend
  have hend' : (devOf n).innardsEnd < 2 ^ 64 := hend
  simp only [DevSummary.words, List.mem_cons, List.not_mem_nil, or_false, forall_eq_or_imp, forall_eq]
  exact ⟨show 0 < _ by decide, show 0 < _ by decide, show devOffset < _ by decide, hend,
    show chunkAt 0 < _ by decide, hend', show chunkAt 0 < _ by decide⟩

theorem Low.mono (h : Low j) (hi : i < j) : Low i := by
  have := chunkAt_add_le hi
  unfold Low at h ⊢
  omega

theorem chunkAt_block (i : Nat) : chunkAt i / blkSize * blkSize = chunkAt i := by
  unfold chunkAt chunkSize blkSize
  omega

/-- A chunk summary is read as it was written. --/
theorem Laid.summary (h : Laid n maxBytes m k) (hi : i < k) :
    m.file.sb.summary? (chunkAt i) = some (infoOf i, nextOf (devOf n).endAt i) := by
  have hblock := h.wrote.chunk i hi
  rw [← chunkAt_block i] at hblock
  obtain ⟨b, hb, hread⟩ := hblock.bread
  have hwords := summaryOf_words_lt (E := (devOf n).endAt) (h.low.mono hi)
  have hc : checkChunk b = 0 := (checkMetadata_congr hread).trans (ChunkSummary.checkChunk_bytes rfl)
  have hflags : cFlags b = (infoOf i).flags := (hread 8 8 (by decide)).trans (ChunkSummary.cFlags_bytes hwords)
  have hid : cChunkId b = (infoOf i).chunkId := (hread 16 8 (by decide)).trans (ChunkSummary.cChunkId_bytes hwords)
  have hnext : cNextChunk b = nextOf (devOf n).endAt i :=
    (hread 56 8 (by decide)).trans (ChunkSummary.cNextChunk_bytes hwords)
  rw [Sb.summary?_eq hb hc, hflags, hid, hnext]

theorem Laid.innards (h : Laid n maxBytes m k) : m.file.sb.innards? = some (chunkAt 0) := by
  obtain ⟨b, hb, hread⟩ := RegFile.HasBlock.bread h.wrote.dev
  have hc : checkDev b = 0 := (checkMetadata_congr hread).trans (DevSummary.checkDev_bytes rfl)
  have hfirst : dInnardsBegin b = chunkAt 0 :=
    (hread 40 8 (by decide)).trans (DevSummary.dInnardsBegin_bytes (devOf_words_lt n))
  rw [Sb.innards?_eq hb hc, hfirst]

theorem Laid.pool (h : Laid n maxBytes m k) : ∃ b, m.file.sb.bread poolBlk = some b ∧ checkPool b = 0 := by
  obtain ⟨b, hb, hread⟩ := RegFile.HasBlock.bread h.wrote.pool
  exact ⟨b, hb, (checkMetadata_congr hread).trans (PoolSummary.checkPool_bytes rfl)⟩

theorem Laid.nextOf_eq (h : Laid n maxBytes m k) (hi : i + 1 < k) : nextOf (devOf n).endAt i = chunkAt (i + 1) := by
  have hfit := h.fits (i + 1) hi
  unfold Fits at hfit
  rw [chunkAt_succ] at hfit
  unfold nextOf
  rw [if_pos (by omega)]

/-- The offsets that the next pointers lead to, up to the pointer 0. --/
def Sb.Offsets (sb : Sb) : Nat → List Nat → Prop
  | o, [] => o = 0
  | o, p :: ps => o = p ∧ o ≠ 0 ∧ ∃ ci next, sb.summary? o = some (ci, next) ∧ sb.Offsets next ps

theorem chunkAt_ne_zero (j : Nat) : chunkAt j ≠ 0 := by
  unfold chunkAt
  omega

/-- Where the summary before chunk `j` leads, when `d` chunks are left. --/
def leftAt (j d : Nat) : Nat := if d = 0 then 0 else chunkAt j

theorem Laid.nextOf_leftAt (h : Laid n maxBytes m k) (hend : nextOf (devOf n).endAt (k - 1) = 0) {d : Nat}
    (hk : j + (d + 1) = k) : nextOf (devOf n).endAt j = leftAt (j + 1) d := by
  unfold leftAt
  split
  · have hj : j = k - 1 := by omega
    rw [hj, hend]
  · exact h.nextOf_eq (by omega)

theorem Laid.walk (h : Laid n maxBytes m k) (hend : nextOf (devOf n).endAt (k - 1) = 0) {d : Nat} (hk : j + d = k) :
    m.file.sb.Walk (leftAt j d) ((List.range' j d).map infoOf) true := by
  induction d generalizing j with
  | zero => exact .last
  | succ d ih =>
    rw [List.range'_succ, List.map_cons]
    refine .more (chunkAt_ne_zero j) ((h.summary (by omega)).trans ?_) (ih (j := j + 1) (by omega))
    rw [h.nextOf_leftAt hend hk]

theorem Laid.offsets (h : Laid n maxBytes m k) (hend : nextOf (devOf n).endAt (k - 1) = 0) {d : Nat} (hk : j + d = k) :
    m.file.sb.Offsets (leftAt j d) ((List.range' j d).map chunkAt) := by
  induction d generalizing j with
  | zero => rfl
  | succ d ih =>
    rw [List.range'_succ, List.map_cons]
    refine ⟨rfl, chunkAt_ne_zero j, _, _, h.summary (by omega), ?_⟩
    rw [h.nextOf_leftAt hend hk]
    exact ih (by omega)

/-- Pointers that lead to the summaries written and then to 0 end at the last of them. --/
theorem Laid.nextOf_last (h : Laid n maxBytes m k) {d : Nat} (hk : j + (d + 1) = k)
    (ho : m.file.sb.Offsets (chunkAt j) ((List.range' j (d + 1)).map chunkAt)) :
    nextOf (devOf n).endAt (k - 1) = 0 := by
  induction d generalizing j with
  | zero =>
    obtain ⟨-, -, ci, next, hs, hnext⟩ := ho
    rw [h.summary (by omega)] at hs
    cases hs
    have hj : k - 1 = j := by omega
    rw [hj]
    exact hnext
  | succ d ih =>
    rw [List.range'_succ, List.map_cons] at ho
    obtain ⟨-, -, ci, next, hs, hnext⟩ := ho
    rw [h.summary (by omega), h.nextOf_eq (by omega)] at hs
    cases hs
    exact ih (by omega) hnext

theorem infoOf_isRoot (j : Nat) : (infoOf j).isRoot = decide (j = 0) := by
  by_cases hj : j = 0 <;> simp [infoOf, ChunkInfo.isRoot, hj, chunkfsRoot]

theorem roots_infoOf (hk : 0 < k) : roots ((List.range' 0 k).map infoOf) = 1 := by
  obtain ⟨d, rfl⟩ : ∃ d, k = d + 1 := ⟨k - 1, by omega⟩
  have hrest : roots ((List.range' 1 d).map infoOf) = 0 := by
    refine List.countP_eq_zero.mpr fun c hc => ?_
    obtain ⟨i, hi, rfl⟩ := List.mem_map.mp hc
    have := (List.mem_range'_1.mp hi).1
    rw [infoOf_isRoot, decide_eq_true_iff]
    omega
  rw [List.range'_succ, List.map_cons, roots_cons, hrest]
  rfl

theorem find_infoOf (hk : 0 < k) : ((List.range' 0 k).map infoOf).find? ChunkInfo.isRoot = some (infoOf 0) := by
  obtain ⟨d, rfl⟩ : ∃ d, k = d + 1 := ⟨k - 1, by omega⟩
  rw [List.range'_succ, List.map_cons]
  rfl

theorem short_infoOf : (∀ c ∈ (List.range' 0 k).map infoOf, c.Short) ↔ k < 10 ^ 11 ∨ k = 0 := by
  constructor
  · intro h
    by_cases hk : k = 0
    · exact Or.inr hk
    · have hlast := h (infoOf (k - 1)) (List.mem_map_of_mem (List.mem_range'_1.mpr ⟨Nat.zero_le _, by omega⟩))
      have : k - 1 + 1 < 10 ^ 11 := hlast
      omega
  · rintro hk c hc
    obtain ⟨i, hi, rfl⟩ := List.mem_map.mp hc
    have := (List.mem_range'_1.mp hi).2
    show i + 1 < 10 ^ 11
    omega

/-- The pool that mounting reads has one device, whose chunks are the summaries written, in order, with the
    identifiers from 1 on and the first as the only root; the pointers lead through their offsets. --/
structure MountAgrees (m : Mkfs) : Prop where
  mounts : ∃ fuel pi di, readPool fuel m.file.sb = .ok (0, some pi) m.file.sb ∧ pi.devs = [di] ∧
    di.chunks = m.written.map (fun s => { flags := s.2.flags, chunkId := s.2.chunkId }) ∧
    di.chunks.map ChunkInfo.chunkId = List.range' 1 m.written.length ∧
    di.rootChunk = di.chunks.head? ∧ roots di.chunks = 1
  offsets : ∃ o, m.file.sb.innards? = some o ∧ m.file.sb.Offsets o (m.written.map Prod.fst)

theorem Laid.written_fst (h : Laid n maxBytes m k) : m.written.map Prod.fst = (List.range' 0 k).map chunkAt := by
  rw [h.wrote.written, List.map_map, List.range_eq_range']
  rfl

theorem Laid.written_info (h : Laid n maxBytes m k) :
    m.written.map (fun s => ({ flags := s.2.flags, chunkId := s.2.chunkId } : ChunkInfo)) =
      (List.range' 0 k).map infoOf := by
  rw [h.wrote.written, List.map_map, List.range_eq_range']
  rfl

theorem Laid.agrees (h : Laid n maxBytes m k) (hk : 0 < k) (hend : nextOf (devOf n).endAt (k - 1) = 0)
    (hshort : k < 10 ^ 11) : MountAgrees m := by
  have hleft : leftAt 0 k = chunkAt 0 := if_neg (by omega)
  have hwalk := h.walk hend (Nat.zero_add k)
  have hoff := h.offsets hend (Nat.zero_add k)
  rw [hleft] at hwalk hoff
  have hone : roots ((List.range' 0 k).map infoOf) = 1 := roots_infoOf hk
  have hne : (List.range' 0 k).map infoOf ≠ [] := by
    intro hnil
    rw [hnil] at hone
    cases hone
  obtain ⟨pool, hb, hc⟩ := h.pool
  have hlen : ((List.range' 0 k).map infoOf).length < k + 1 := by
    rw [List.length_map, List.length_range']
    exact Nat.lt_succ_self k
  obtain ⟨pi, di, hdevs, hchunks, hroot, hrun⟩ := readDev_returns m.file.sb_willing h.innards hwalk hlen
    (short_infoOf.mpr (Or.inl hshort)) hone.le (pFlags pool)
  rw [if_pos ⟨rfl, hne⟩, if_pos ⟨rfl, hone⟩] at hrun
  refine ⟨⟨k + 1, { pi with devs := pi.devs ++ [di] }, di, ?_, ?_, ?_, ?_, ?_, ?_⟩, chunkAt 0, h.innards, ?_⟩
  · rw [readPool_of_pool m.file.sb_willing hb hc, Exec.bind_ok hrun]
    rfl
  · rw [hdevs]
    rfl
  · rw [hchunks, h.written_info]
  · rw [hchunks, h.wrote.written, List.map_map, List.length_map, List.length_range, List.range'_eq_map_range,
      List.range'_eq_map_range, List.map_map]
    exact List.map_congr_left fun i _ => by simp [infoOf, Nat.add_comm]
  · rw [hroot, hchunks, find_infoOf hk]
    obtain ⟨d, rfl⟩ : ∃ d, k = d + 1 := ⟨k - 1, by omega⟩
    rw [List.range'_succ, List.map_cons, List.head?_cons]
  · rw [hchunks, hone]
  · rw [h.written_fst]
    exact hoff

theorem Laid.of_agrees (h : Laid n maxBytes m k) (hk : 0 < k) (ha : MountAgrees m) :
    nextOf (devOf n).endAt (k - 1) = 0 ∧ k < 10 ^ 11 := by
  obtain ⟨o, ho, hoff⟩ := ha.offsets
  rw [h.innards] at ho
  cases ho
  rw [h.written_fst] at hoff
  obtain ⟨d, rfl⟩ : ∃ d, k = d + 1 := ⟨k - 1, by omega⟩
  have hend := h.nextOf_last (Nat.zero_add (d + 1)) hoff
  refine ⟨hend, ?_⟩
  by_contra hlong
  have hbad : ∃ c ∈ (List.range' 0 (d + 1)).map infoOf, ¬c.Short := by
    by_contra hall
    push Not at hall
    rcases short_infoOf.mp hall with hlt | hzero
    · exact hlong hlt
    · cases hzero
  obtain ⟨pool, hb, hc⟩ := h.pool
  obtain ⟨fuel, pi, di, hrun, -⟩ := ha.mounts
  have hwalk := h.walk hend (Nat.zero_add (d + 1))
  have hstops : ∃ e, readDev fuel (newPool (pFlags pool)) m.file.sb = .error e m.file.sb :=
    readDev_stops m.file.sb_willing h.innards hwalk (Or.inl hbad) (pFlags pool)
  obtain ⟨e, he⟩ := hstops
  rw [readPool_of_pool m.file.sb_willing hb hc, Exec.bind_error he] at hrun
  cases hrun

/-- Mounting agrees with mkfs for the sizes that do not wrap, give no identifier too long for its buffer and do
    not fall between the two conditions. --/
theorem mount_agrees_iff (hn : f.size ≤ maxBytes) (hmax : maxBytes < 2 ^ 63) (hw : (mkfs f maxBytes).written ≠ []) :
    MountAgrees (mkfs f maxBytes) ↔
      2 ≤ f.size ∧ f.size < 40962 + 10 ^ 11 * chunkSize ∧ ∀ c, 2 ≤ c → f.size ≠ 40961 + c * chunkSize := by
  obtain ⟨k, hk, h⟩ := mkfs_laid hmax hw
  have hiff : MountAgrees (mkfs f maxBytes) ↔ nextOf (devOf f.size).endAt (k - 1) = 0 ∧ k < 10 ^ 11 :=
    ⟨h.of_agrees hk, fun ⟨hend, hshort⟩ => h.agrees hk hend hshort⟩
  obtain ⟨d, rfl⟩ : ∃ d, k = d + 1 := ⟨k - 1, by omega⟩
  have hnext : nextOf (devOf f.size).endAt d = 0 ↔ ¬chunkAt d + chunkSize - 1 + chunkSize - 1 < (devOf f.size).endAt := by
    unfold nextOf
    split
    · rename_i hc
      exact ⟨fun hz => absurd hz (chunkAt_ne_zero _), fun hc' => absurd hc hc'⟩
    · rename_i hc
      exact ⟨fun _ => hc, fun _ => rfl⟩
  rw [hiff, Nat.add_sub_cancel, hnext]
  have hfit := h.fits d (Nat.lt_succ_self d)
  have hlast := h.last
  have hlow := h.low
  have hend : (devOf f.size).endAt = f.size - 2 ∧ 2 ≤ f.size ∨
      (devOf f.size).endAt = 2 ^ 64 + f.size - 2 ∧ f.size < 2 := by
    rw [devOf_endAt]
    unfold u64
    omega
  unfold Fits at hfit hlast
  unfold Low at hlow
  clear hnext hiff
  generalize (devOf f.size).endAt = e at hend hfit hlast ⊢
  unfold chunkAt at hfit hlast hlow ⊢
  unfold chunkSize at hfit hlast hlow ⊢
  unfold blkSize at hlast
  rcases hend with ⟨rfl, hsize⟩ | ⟨rfl, hsize⟩
  · constructor
    · rintro ⟨hno, hshort⟩
      refine ⟨hsize, by omega, fun c hc heq => ?_⟩
      omega
    · rintro ⟨htwo, hlong, hgap⟩
      refine ⟨fun hyes => ?_, by omega⟩
      exact hgap (d + 2) (by omega) (by omega)
  · constructor
    · rintro ⟨hno, -⟩
      omega
    · rintro ⟨htwo, -⟩
      omega

/-- A file of zeros. --/
def blankFile (size : Nat) : RegFile := { size := size, byte := fun _ => 0 }

/-- Two chunks fit, and the first leads to the second. --/
theorem mount_agrees_two : MountAgrees (mkfs (blankFile 21012482) 21012482) :=
  (mount_agrees_iff (le_refl _) (by decide) (by decide +kernel)).mpr ⟨by decide, by decide, fun c hc heq => by
    have : (21012482 : Nat) = 40961 + c * chunkSize := heq
    unfold chunkSize at this
    omega⟩

/-- The smallest file whose only chunk summary points to a second one. --/
theorem mount_disagrees : (mkfs (blankFile 21012481) 21012481).written.map Prod.fst = [40960] ∧
    ¬MountAgrees (mkfs (blankFile 21012481) 21012481) := by
  have hwritten : (mkfs (blankFile 21012481) 21012481).written.map Prod.fst = [40960] := by decide +kernel
  refine ⟨hwritten, fun ha => ?_⟩
  have hne : (mkfs (blankFile 21012481) 21012481).written ≠ [] := by
    intro hnil
    rw [hnil] at hwritten
    cases hwritten
  obtain ⟨k, hk, h⟩ := mkfs_laid (by decide) hne
  have hone : k = 1 := by
    have := congrArg List.length (h.written_fst.symm.trans hwritten)
    simpa using this
  subst hone
  exact absurd (h.of_agrees hk ha).1 (by decide)

end Mounting

end Chunkfs
