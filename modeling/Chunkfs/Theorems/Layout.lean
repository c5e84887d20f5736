import Chunkfs.Theorems.Mkfs

/-! Where `write_chunk_summaries` lays the chunks of a device. Every number it computes is below 2^64 as long as the
    device has two bytes; for a smaller one the end of the device has wrapped. -/

namespace Chunkfs
open Word
variable {n j k d fuel E : Nat} {m : Mkfs}

/-! ### The rounds of the loop -/

/-- `chunk_start` and `chunk_id` at each test of the loop of `write_chunk_summaries`. --/
def loopTests (devEnd : Nat) : Nat → Nat → Nat → List (Nat × Nat)
  | 0, _, _ => []
  | fuel + 1, chunkStart, chunkId => (chunkStart, chunkId) ::
      if u64 (chunkStart + chunkSize - 1) < devEnd then
        loopTests devEnd fuel (u64 (chunkStart + chunkSize)) (u64 (chunkId + 1))
      else []

/-- The sums that a round makes, not cut to 64 bits: in the loop and in `create_chunk_summary`. --/
def roundSums (chunkStart chunkId : Nat) : List Nat :=
  let chunkEnd := chunkStart + chunkSize - 1
  [chunkStart + chunkSize, chunkStart + blkSize, chunkEnd + chunkSize, chunkEnd + 1, chunkId + 1]

theorem loopTests_eq (hlow : Low j) : loopTests E (fuel + 1) (chunkAt j) (j + 1) =
    (chunkAt j, j + 1) :: if Fits E j then loopTests E fuel (chunkAt (j + 1)) (j + 1 + 1) else [] := by
  obtain ⟨hcond, hid, hstart⟩ := round_sums hlow
  rw [loopTests]
  simp only [hcond, hstart, hid]
  rfl

/-- The tests come at the chunks in order, the last at the first one that does not fit. --/
theorem loopTests_chunks (hlow : Low (j + d)) (hfits : ∀ i, j ≤ i → i < j + d → Fits E i) (hstop : ¬Fits E (j + d))
    (hfuel : d < fuel) :
    loopTests E fuel (chunkAt j) (j + 1) = (List.range' j (d + 1)).map fun i => (chunkAt i, i + 1) := by
  induction d generalizing j fuel with
  | zero =>
    obtain ⟨fuel, rfl⟩ : ∃ g, fuel = g + 1 := ⟨fuel - 1, by omega⟩
    rw [loopTests_eq (j := j) hlow, if_neg (show ¬Fits E j from hstop)]
    rfl
  | succ d ih =>
    obtain ⟨fuel, rfl⟩ : ∃ g, fuel = g + 1 := ⟨fuel - 1, by omega⟩
    have hnext : j + (d + 1) = j + 1 + d := by omega
    rw [loopTests_eq (hlow.mono (i := j) (by omega)), if_pos (hfits j (le_refl j) (by omega)), List.range'_succ, List.map_cons,
      ih (hnext ▸ hlow) (fun i hi hlt => hfits i (by omega) (by omega)) (hnext ▸ hstop) (by omega)]

/-- The loop writes the chunks that fit, and leaves the blocks before them alone. --/
theorem writeChunks_chunks (hlow : Low (j + d)) (hfits : ∀ i, j ≤ i → i < j + d → Fits E i) (hstop : ¬Fits E (j + d))
    (hmax : m.maxBytes < 2 ^ 63) (hroom : ∀ i, j ≤ i → i < j + d → chunkAt i + blkSize ≤ m.maxBytes) (hfuel : d < fuel) :
    ∃ m', writeChunks fuel E (chunkAt j) (j + 1) m = .ok ⟨⟩ m' ∧
      m'.written = m.written ++ (List.range' j d).map (fun i => (chunkAt i, summaryOf E i)) ∧
      (∀ i, j ≤ i → i < j + d → m'.file.HasBlock (chunkAt i) (writeChksum (summaryOf E i).bytes)) ∧
      ∀ other b, m.file.HasBlock other b → other + blkSize ≤ chunkAt j → m'.file.HasBlock other b := by
  induction d generalizing j fuel m with
  | zero =>
    obtain ⟨fuel, rfl⟩ : ∃ g, fuel = g + 1 := ⟨fuel - 1, by omega⟩
    exact ⟨m, writeChunks_done hlow hstop, (List.append_nil _).symm, fun i hi hlt => absurd hlt (Nat.not_lt.mpr hi),
      fun _ _ hb _ => hb⟩
  | succ d ih =>
    obtain ⟨fuel, rfl⟩ : ∃ g, fuel = g + 1 := ⟨fuel - 1, by omega⟩
    have hnext : j + (d + 1) = j + 1 + d := by omega
    rw [writeChunks_round (hlow.mono (i := j) (by omega)) (hfits j (le_refl j) (by omega)) hmax (hroom j (le_refl j) (by omega))]
    obtain ⟨m', hrun, hwritten, hblocks, hkeep⟩ := ih (m := { m with
        file := m.file.put (chunkAt j) (writeChksum (summaryOf E j).bytes) blkSize
        written := m.written ++ [(chunkAt j, summaryOf E j)] }) (hnext ▸ hlow)
      (fun i hi hlt => hfits i (by omega) (by omega)) (hnext ▸ hstop) hmax (fun i hi hlt => hroom i (by omega) (by omega))
      (show d < fuel by omega)
    have hbehind : chunkAt j + blkSize ≤ chunkAt (j + 1) := by
      rw [chunkAt_succ]
      exact Nat.add_le_add_left blkSize_le_chunkSize _
    refine ⟨m', hrun, hwritten.trans ?_, fun i hi hlt => ?_, fun other b hb hle => ?_⟩
    · rw [List.range'_succ, List.map_cons, List.append_assoc]
      rfl
    · rcases Nat.eq_or_lt_of_le hi with rfl | hlater
      · exact hkeep _ _ (RegFile.hasBlock_put ..) hbehind
      · exact hblocks i hlater (by omega)
    · exact hkeep other b (hb.put le_rfl (Or.inl hle)) (by omega)

/-! ### The layout -/

/-- The chunks on a device of `n` bytes: as many as fit, one behind the other, behind the pool and device blocks. --/
structure Layout (n : Nat) (l : List (Nat × ChunkSummary)) : Prop where
  most : ∀ k, k ≤ l.length ↔ k = 0 ∨ 40960 + k * 10485760 - 1 < n - 2
  summary : ∀ (i : Nat) (s : Nat × ChunkSummary), l[i]? = some s →
    s.1 = s.2.beginAt ∧ s.2.beginAt = 40960 + i * 10485760 ∧ s.2.chunkId = i + 1 ∧
    s.2.endAt = s.2.beginAt + 10485759 ∧ s.2.endAt < n - 2 ∧ s.2.innardsBegin = s.2.beginAt + 4096
  root : ∀ (i : Nat) (s : Nat × ChunkSummary), l[i]? = some s → (s.2.flags &&& chunkfsRoot ≠ 0 ↔ i = 0)
  disjoint : ∀ (i j : Nat) (s t : Nat × ChunkSummary), l[i]? = some s → l[j]? = some t → i < j → s.2.endAt < t.2.beginAt
  adjacent : ∀ (i : Nat) (s t : Nat × ChunkSummary), l[i]? = some s → l[i + 1]? = some t → t.2.beginAt = s.2.endAt + 1
  behind : ∀ s ∈ l, poolOffset + blkSize ≤ s.2.beginAt ∧ devOffset + blkSize ≤ s.2.beginAt

theorem chunkAt_eq (j : Nat) : chunkAt j = 40960 + j * 10485760 := rfl

theorem fits_iff : Fits E j ↔ 40960 + (j + 1) * 10485760 - 1 < E := by
  unfold Fits
  rw [chunkAt_eq, show chunkSize = 10485760 from rfl]
  omega

theorem layout_of_summaries (hfits : ∀ i < k, Fits (n - 2) i) (hstop : ¬Fits (n - 2) k) :
    Layout n ((List.range k).map fun i => (chunkAt i, summaryOf (n - 2) i)) := by
  have hget : ∀ {i : Nat} {s : Nat × ChunkSummary}, ((List.range k).map fun i => (chunkAt i, summaryOf (n - 2) i))[i]? =
      some s → i < k ∧ s = (chunkAt i, summaryOf (n - 2) i) := by
    intro i s hs
    rw [List.getElem?_map, Option.map_eq_some_iff] at hs
    obtain ⟨x, hx, rfl⟩ := hs
    obtain ⟨hlt, rfl⟩ := List.getElem?_eq_some_iff.mp hx
    rw [List.length_range] at hlt
    exact ⟨hlt, by rw [List.getElem_range]⟩
  have hsize : chunkSize = 10485760 := rfl
  constructor
  · intro q
    rw [List.length_map, List.length_range]
    rw [fits_iff] at hstop
    constructor
    · intro hq
      by_cases hq₀ : q = 0
      · exact Or.inl hq₀
      · have := fits_iff.mp (hfits (q - 1) (by omega))
        exact Or.inr (by rwa [Nat.sub_add_cancel (by omega)] at this)
    · rintro (rfl | hq)
      · exact Nat.zero_le k
      · by_contra hlt
        omega
  · intro i s hs
    obtain ⟨hlt, rfl⟩ := hget hs
    have hfit : chunkAt i + chunkSize - 1 < n - 2 := hfits i hlt
    exact ⟨rfl, rfl, rfl, by simp only [summaryOf, hsize]; omega, hfit, rfl⟩
  · intro i s hs
    obtain ⟨-, rfl⟩ := hget hs
    show (if i = 0 then chunkfsRoot else 0) &&& chunkfsRoot ≠ 0 ↔ i = 0
    split
    · rename_i hi
      exact ⟨fun _ => hi, fun _ => by decide⟩
    · rename_i hi
      exact ⟨fun h => absurd (Nat.zero_and _) h, fun h => absurd h hi⟩
  · intro i j s t hs ht hij
    obtain ⟨-, rfl⟩ := hget hs
    obtain ⟨-, rfl⟩ := hget ht
    have := chunkAt_add_le hij
    show chunkAt i + chunkSize - 1 < chunkAt j
    omega
  · intro i s t hs ht
    obtain ⟨-, rfl⟩ := hget hs
    obtain ⟨-, rfl⟩ := hget ht
    have := chunkAt_succ i
    show chunkAt (i + 1) = chunkAt i + chunkSize - 1 + 1
    omega
  · intro s hs
    obtain ⟨i, -, rfl⟩ := List.mem_map.mp hs
    have hdev := devOffset_le_chunkAt i
    have hpool : poolOffset ≤ devOffset := by decide
    exact ⟨Nat.le_trans (Nat.add_le_add_right hpool blkSize) hdev, hdev⟩

/-- A device of two bytes or more ends where it should. --/
theorem devOf_endAt_of_le (h₂ : 2 ≤ n) (hn : n < 2 ^ 63) : (devOf n).endAt = n - 2 := by
  rw [devOf_endAt]
  unfold u64
  omega

/-- The chunks that fit, and the first that does not. --/
theorem exists_fits (n : Nat) : ∃ k, (∀ i < k, Fits (n - 2) i) ∧ ¬Fits (n - 2) k ∧ k * 10485760 ≤ n := by
  have hbound : ¬Fits (n - 2) n := by
    rw [fits_iff]
    omega
  have hex : ∃ k, ¬Fits (n - 2) k := ⟨n, hbound⟩
  refine ⟨Nat.find hex, fun i hi => not_not.mp (Nat.find_min hex hi), Nat.find_spec hex, ?_⟩
  by_cases hk : Nat.find hex = 0
  · rw [hk]
    omega
  · have := fits_iff.mp (not_not.mp (Nat.find_min hex (m := Nat.find hex - 1) (by omega)))
    rw [Nat.sub_add_cancel (by omega)] at this
    omega

/-- `write_chunk_summaries` ends with the layout, each summary in its block, and no sum of its rounds wraps. --/
theorem chunk_layout (h₂ : 2 ≤ n) (hroom : n ≤ m.maxBytes) (hmax : m.maxBytes < 2 ^ 63) (hnone : m.written = [])
    (hfuel : n / chunkSize < fuel) : (devOf n).endAt = n - 2 ∧
      (∃ m', writeChunkSummaries fuel (devOf n) m = .ok ⟨⟩ m' ∧ Layout n m'.written ∧
        ∀ s ∈ m'.written, m'.file.HasBlock s.1 (writeChksum s.2.bytes)) ∧
      ∀ r ∈ loopTests (devOf n).endAt fuel (devOf n).rootChunk 1, ∀ x ∈ roundSums r.1 r.2, x < 2 ^ 64 := by
  have hend := devOf_endAt_of_le h₂ (by omega)
  obtain ⟨k, hfits, hstop, hk⟩ := exists_fits n
  have hsize : chunkSize = 10485760 := rfl
  have hlow : Low (0 + k) := by
    unfold Low
    rw [chunkAt_eq]
    omega
  have hkn : k ≤ n / chunkSize := by
    rw [hsize]
    omega
  have hkfuel : k < fuel := by omega
  have hfits' : ∀ i, 0 ≤ i → i < 0 + k → Fits (devOf n).endAt i := fun i _ hi => hend ▸ hfits i (by omega)
  have hstop' : ¬Fits (devOf n).endAt (0 + k) := by
    rw [hend, Nat.zero_add]
    exact hstop
  refine ⟨hend, ?_, fun r hr x hx => ?_⟩
  · obtain ⟨m', hrun, hwritten, hblocks, -⟩ := writeChunks_chunks hlow hfits' hstop' hmax (fun i _ hi => by
      have := fits_iff.mp (hfits i (by omega))
      have hblk : blkSize = 4096 := rfl
      rw [chunkAt_eq]
      omega) hkfuel
    rw [hnone, List.nil_append, ← List.range_eq_range', hend] at hwritten
    refine ⟨m', hrun, hwritten ▸ layout_of_summaries hfits hstop, fun s hs => ?_⟩
    rw [hwritten] at hs
    obtain ⟨i, hi, rfl⟩ := List.mem_map.mp hs
    exact hend ▸ hblocks i (Nat.zero_le i) (by rw [Nat.zero_add]; exact List.mem_range.mp hi)
  · rw [devOf_rootChunk, loopTests_chunks hlow hfits' hstop' hkfuel] at hr
    obtain ⟨i, hi, rfl⟩ := List.mem_map.mp hr
    have hik := (List.mem_range'_1.mp hi).2
    simp only [roundSums, chunkAt_eq, hsize, show blkSize = 4096 from rfl, List.mem_cons, List.not_mem_nil, or_false] at hx
    omega

theorem chunk_layout_two : ∃ m', writeChunkSummaries 3 (devOf 21012482) ⟨blankFile 21012482, 21012482, []⟩ = .ok ⟨⟩ m' ∧
    Layout 21012482 m'.written ∧ ∀ s ∈ m'.written, m'.file.HasBlock s.1 (writeChksum s.2.bytes) :=
  (chunk_layout (m := ⟨blankFile 21012482, 21012482, []⟩) (by decide) (le_refl _) (by decide) rfl (by decide)).2.1

/-! ### Sizes that are too small -/

section Within
variable {f : RegFile} {maxBytes : Nat}

/-- What mkfs describes and writes lies on the device: its end and the ends of its chunks are below its size. --/
structure Within (f : RegFile) (maxBytes : Nat) : Prop where
  dev : (mkfs f maxBytes).written ≠ [] → (devOf f.size).beginAt ≤ (devOf f.size).endAt ∧ (devOf f.size).endAt < f.size
  chunks : ∀ s ∈ (mkfs f maxBytes).written, s.2.endAt < f.size
  ends : ∀ m', mkfsMain ⟨f, maxBytes, []⟩ ≠ .error .hang m'

theorem mkfsMain_ends (f : RegFile) (hmax : maxBytes < 2 ^ 63) (m' : Mkfs) :
    mkfsMain ⟨f, maxBytes, []⟩ ≠ .error .hang m' := by
  intro hhang
  rcases mkfsMain_cases (f := f) hmax with ⟨-, m₁, hrun, -⟩ | ⟨k, m₁, -, ⟨hrun, -⟩ | hrun⟩
  all_goals
    rw [hrun] at hhang
    cases hhang

/-- Where there is no room for the first chunk summary, none is written. --/
theorem mkfs_written_nil (hsmall : maxBytes < chunkAt 0 + blkSize) : (mkfs f maxBytes).written = [] := by
  unfold mkfs
  rcases mkfsMain_start f maxBytes with ⟨-, m', hrun, hnone⟩ | ⟨m₁, hbytes, hstart, hrun⟩
  · rw [hrun]
    exact hnone
  · rw [hrun]
    have hlow : Low 0 := show chunkAt 0 < 2 ^ 63 + 2 ^ 62 by decide
    by_cases hfit : Fits (devOf f.size).endAt 0
    · obtain ⟨m', hstop, hw⟩ := writeChunks_refused (maxBytes / chunkSize + 1) hstart hlow hfit (hbytes ▸ hsmall)
      rw [hstop]
      exact hw.written
    · rw [writeChunks_done hlow hfit]
      exact hstart.written

/-- A file of no or one byte whose end has wrapped gets a chunk summary where there is room for one. --/
theorem mkfs_written_of_small (hmax : maxBytes < 2 ^ 63) (hsize : f.size < 2) (hroom : chunkAt 0 + blkSize ≤ maxBytes) :
    (mkfs f maxBytes).written ≠ [] ∧ f.size ≤ (devOf f.size).endAt := by
  have hend : (devOf f.size).endAt = 2 ^ 64 + f.size - 2 := by
    rw [devOf_endAt]
    unfold u64
    omega
  refine ⟨?_, by omega⟩
  unfold mkfs
  have hdev : devOffset + blkSize ≤ chunkAt 0 := devOffset_le_chunkAt 0
  rcases mkfsMain_cases (f := f) hmax with ⟨hfull, -⟩ | ⟨k, m', hlaid, hrun⟩
  · omega
  · have hfinal : Exec.final (mkfsMain ⟨f, maxBytes, []⟩) = m' := by
      rcases hrun with ⟨hrun, -⟩ | hrun <;> rw [hrun] <;> rfl
    rw [hfinal, hlaid.wrote.written]
    have hk : k ≠ 0 := by
      rintro rfl
      rcases hlaid.last with hstop | hfull
      · rw [fits_iff, hend] at hstop
        omega
      · omega
    simp [hk]

theorem within_iff (hn : f.size ≤ maxBytes) (hmax : maxBytes < 2 ^ 63) :
    Within f maxBytes ↔ 2 ≤ f.size ∨ maxBytes < 45056 := by
  constructor
  · intro h
    by_contra hsmall
    obtain ⟨hsize, hroom⟩ := not_or.mp hsmall
    obtain ⟨hwritten, hle⟩ := mkfs_written_of_small (f := f) hmax (Nat.not_le.mp hsize) (Nat.not_lt.mp hroom)
    exact absurd (h.dev hwritten).2 (Nat.not_lt.mpr hle)
  · rintro (h₂ | hsmall)
    · have hend := devOf_endAt_of_le h₂ (by omega)
      refine ⟨fun hwritten => ?_, fun s hs => ?_, mkfsMain_ends f hmax⟩
      · obtain ⟨k, hk, hlaid⟩ := mkfs_laid hmax hwritten
        have hfirst := fits_iff.mp (hlaid.fits 0 hk)
        rw [hend] at hfirst ⊢
        have hbegin : (devOf f.size).beginAt = 36864 := rfl
        omega
      · have hwritten : (mkfs f maxBytes).written ≠ [] := List.ne_nil_of_mem hs
        obtain ⟨k, hk, hlaid⟩ := mkfs_laid hmax hwritten
        rw [hlaid.wrote.written] at hs
        obtain ⟨i, hi, rfl⟩ := List.mem_map.mp hs
        have hfit : chunkAt i + chunkSize - 1 < (devOf f.size).endAt := hlaid.fits i (List.mem_range.mp hi)
        rw [hend] at hfit
        show chunkAt i + chunkSize - 1 < f.size
        omega
    · have hnil : (mkfs f maxBytes).written = [] := mkfs_written_nil hsmall
      refine ⟨fun hwritten => absurd hnil hwritten, fun s hs => ?_, mkfsMain_ends f hmax⟩
      rw [hnil] at hs
      cases hs

/-- A device with room for two chunks. --/
theorem within_two : Within (blankFile 21012482) (2 ^ 40) := (within_iff (by decide) (by decide)).mpr (Or.inl (by decide))

/-- A block device, whose size is reported as 0. --/
theorem empty_not_within : (devOf (blankFile 0).size).endAt = 2 ^ 64 - 2 ∧ ¬Within (blankFile 0) (2 ^ 40) := by
  have hlarge : chunkAt 0 + blkSize ≤ 2 ^ 40 := by decide
  obtain ⟨hwritten, hle⟩ := mkfs_written_of_small (f := blankFile 0) (by decide) (by decide) hlarge
  exact ⟨by decide, fun h => absurd (h.dev hwritten).2 (Nat.not_lt.mpr hle)⟩

end Within

end Chunkfs
