import Chunkfs.Setup
import Chunkfs.Theorems.Layout

/-! The pool that `test.sh` sets up. The client file systems lie in the innards of the chunks, each is mounted where a
    mount of chunkfs looks for its chunk, and whatever they write, each is a disk of its own, and the summaries that
    mkfs has written are found again. -/

namespace Chunkfs
open Exec
variable {f : RegFile} {m : Mkfs} {maxBytes n k j d : Nat}

/-! ### What the script reads in what mkfs prints -/

section Printed
variable {magic offset : Nat} {chunk : ChunkSummary} {c : Char}

/-- Where a decimal number stands there are only digits. --/
theorem not_mem_print (hc : c.isDigit = false) (n : Nat) : c ∉ Decimal.print n := fun h => by
  rw [Decimal.isDigit_of_mem_print h] at hc
  cases hc

theorem mem_hex (h : c ∈ hex n) : c ∈ "0123456789abcdef".toList := by
  have digit : ∀ d < 16, Nat.digitChar d ∈ "0123456789abcdef".toList := by decide
  induction n using Nat.strongRecOn with
  | ind n ih =>
    unfold hex at h ih
    rw [Nat.toDigits_eq_if (by decide)] at h
    split at h
    · rename_i hlt
      rw [List.mem_singleton.mp h]
      exact digit n hlt
    · rename_i hge
      rcases List.mem_append.mp h with h | h
      · exact ih (n / 16) (by omega) h
      · rw [List.mem_singleton.mp h]
        exact digit _ (Nat.mod_lt n (by decide))

theorem not_mem_writingBlock (hc : c.isDigit = false) (hhex : c ∉ "0123456789abcdef".toList)
    (htext : c ∉ "Writing magic ".toList ++ " chksum ".toList ++ " to offset ".toList) (magic offset : Nat) :
    c ∉ writingBlock magic offset := by
  unfold writingBlock
  simp only [List.mem_append, not_or] at htext ⊢
  exact ⟨⟨⟨⟨⟨htext.1.1, mt mem_hex hhex⟩, htext.1.2⟩, mt mem_hex hhex⟩, htext.2⟩, not_mem_print hc offset⟩

theorem not_mem_writingChunk (hc : c.isDigit = false)
    (htext : c ∉ "Writing chunk ".toList ++ ": start ".toList ++ " end ".toList ++ ")".toList) (chunk : ChunkSummary) :
    c ∉ chunk.writingChunk := by
  unfold ChunkSummary.writingChunk
  simp only [List.mem_append, not_or] at htext ⊢
  exact ⟨⟨⟨⟨⟨⟨htext.1.1.1, not_mem_print hc _⟩, htext.1.1.2⟩, not_mem_print hc _⟩, htext.1.2⟩, not_mem_print hc _⟩, htext.2⟩

/-- The pattern of the script has an `l` in it, and no other line has. --/
theorem not_clientfs_of_not_mem {line : List Char} (h : 'l' ∉ line) : ¬"clientfs: start".toList <:+: line :=
  fun hi => h (hi.subset (by decide))

theorem writingBlock_not_clientfs (magic offset : Nat) : ¬"clientfs: start".toList <:+: writingBlock magic offset :=
  not_clientfs_of_not_mem (not_mem_writingBlock rfl (by decide) (by decide) magic offset)

theorem writingChunk_not_clientfs (chunk : ChunkSummary) : ¬"clientfs: start".toList <:+: chunk.writingChunk :=
  not_clientfs_of_not_mem (not_mem_writingChunk rfl (by decide) chunk)

theorem writingBlock_line (magic offset : Nat) : '\n' ∉ writingBlock magic offset :=
  not_mem_writingBlock rfl (by decide) (by decide) magic offset

theorem isSep_of_isDigit (h : c.isDigit = true) : Text.isSep c = false := by
  by_contra hsep
  simp only [Text.isSep, Bool.not_eq_false, Bool.or_eq_true, decide_eq_true_eq] at hsep
  rcases hsep with (rfl | rfl) | rfl <;> cases h

theorem clientfsStart_field (chunk : ChunkSummary) :
    "clientfs: start".toList <:+: chunk.clientfsStart ∧
      (Text.words chunk.clientfsStart).getD 2 [] = Decimal.print chunk.innardsBegin := by
  refine ⟨⟨[], ' ' :: Decimal.print chunk.innardsBegin, rfl⟩, ?_⟩
  have hsep : ∀ c ∈ Decimal.print chunk.innardsBegin, Text.isSep c = false := fun c hc =>
    isSep_of_isDigit (Decimal.isDigit_of_mem_print hc)
  have hclientfs : ∀ c ∈ "clientfs:".toList, Text.isSep c = false := by simp [Text.isSep]
  have hstart : ∀ c ∈ "start".toList, Text.isSep c = false := by simp [Text.isSep]
  have hwords : Text.words chunk.clientfsStart = ["clientfs:".toList, "start".toList, Decimal.print chunk.innardsBegin] := by
    refine (Text.words_cons (by simp) hclientfs ("start".toList ++ ' ' :: Decimal.print chunk.innardsBegin)).trans ?_
    rw [Text.words_cons (by simp) hstart, Text.words_of_no_sep (Decimal.print_ne_nil _) hsep]
  rw [hwords]
  rfl

theorem lines_line {x : List Char} (hx : x ∈ chunk.lines offset) : '\n' ∉ x := by
  rcases List.mem_cons.mp hx with rfl | hx
  · exact not_mem_writingChunk rfl (by decide) chunk
  rcases List.mem_cons.mp hx with rfl | hx
  · exact fun hm => (List.mem_append.mp hm).elim (by decide) (not_mem_print rfl _)
  · rw [List.mem_singleton.mp hx]
    exact writingBlock_line chunk.magic offset

/-- Of the lines of a round the script picks the second. --/
theorem filter_lines (chunk : ChunkSummary) (offset : Nat) :
    (chunk.lines offset).filter ("clientfs: start".toList <:+: ·) = [chunk.clientfsStart] := by
  unfold ChunkSummary.lines
  rw [List.filter_cons_of_neg (by rw [decide_eq_true_iff]; exact writingChunk_not_clientfs chunk),
    List.filter_cons_of_pos (by rw [decide_eq_true_iff]; exact (clientfsStart_field chunk).1),
    List.filter_cons_of_neg (by rw [decide_eq_true_iff]; exact writingBlock_not_clientfs chunk.magic offset), List.filter_nil]

theorem filter_rounds (l : List (Nat × ChunkSummary)) :
    (l.flatMap fun x => x.2.lines x.1).filter ("clientfs: start".toList <:+: ·) = l.map fun x => x.2.clientfsStart := by
  induction l with
  | nil => rfl
  | cons x l ih =>
    rw [List.flatMap_cons, List.filter_append, filter_lines, ih]
    rfl

/-- The offsets that the script goes through. --/
theorem words_awk_output (m : Mkfs) :
    Text.words (Text.awk "clientfs: start".toList 3 m.output) = m.written.map fun x => Decimal.print x.2.innardsBegin := by
  have hlines : ∀ x ∈ writingBlock superMagic poolOffset :: writingBlock devMagic devOffset ::
      m.written.flatMap fun x => x.2.lines x.1, '\n' ∉ x := fun x hx => by
    rcases List.mem_cons.mp hx with rfl | hx
    · exact writingBlock_line _ _
    rcases List.mem_cons.mp hx with rfl | hx
    · exact writingBlock_line _ _
    obtain ⟨y, -, hx⟩ := List.mem_flatMap.mp hx
    exact lines_line hx
  have hprint : ∀ x ∈ m.written.map fun x => Decimal.print x.2.innardsBegin,
      x ≠ [] ∧ ∀ c ∈ x, Text.isSep c = false := fun x hx => by
    obtain ⟨y, -, rfl⟩ := List.mem_map.mp hx
    exact ⟨Decimal.print_ne_nil _, fun c hc => isSep_of_isDigit (Decimal.isDigit_of_mem_print hc)⟩
  have hfield : (m.written.map fun x => x.2.clientfsStart).map (fun line => (Text.words line).getD 2 []) =
      m.written.map fun x => Decimal.print x.2.innardsBegin := by
    rw [List.map_map]
    exact List.map_congr_left fun x _ => (clientfsStart_field x.2).2
  have hhead : (writingBlock superMagic poolOffset :: writingBlock devMagic devOffset ::
      m.written.flatMap fun x => x.2.lines x.1).filter ("clientfs: start".toList <:+: ·) =
      m.written.map fun x => x.2.clientfsStart := by
    have hskip : ∀ (magic offset : Nat) (l : List (List Char)),
        (writingBlock magic offset :: l).filter ("clientfs: start".toList <:+: ·) =
          l.filter ("clientfs: start".toList <:+: ·) := fun magic offset l =>
      List.filter_cons_of_neg (decide_eq_true_iff.not.mpr (writingBlock_not_clientfs magic offset))
    rw [hskip, hskip, filter_rounds]
  unfold Mkfs.output
  rw [Text.awk_unlines hlines (by decide), hhead, hfield, Text.words_unlines hprint]

end Printed

/-! ### The client file systems -/

/-- The client file system of chunk `j`, counting from 0: it is mounted at the path of its chunk and begins behind the
    chunk's summary. --/
def clientOf (j : Nat) : ClientMount := { path := mountPath (j + 1), start := chunkAt j + blkSize }

theorem mountClients_print (hlow : Low (j + d)) :
    mountClients (j + 1) ((List.range' j d).map fun i => Decimal.print (chunkAt i + blkSize)) =
      (List.range' j d).map clientOf := by
  induction d generalizing j with
  | zero => rfl
  | succ d ih =>
    have hj : Low (j + 1 + d) := by rwa [Nat.add_right_comm]
    have hfit : chunkAt j + blkSize < 2 ^ 64 := by
      have hle : chunkAt j + chunkSize ≤ chunkAt (j + (d + 1)) := chunkAt_add_le (Nat.lt_add_of_pos_right (Nat.succ_pos d))
      have hblk := blkSize_le_chunkSize
      have : chunkAt (j + (d + 1)) < 2 ^ 63 + 2 ^ 62 := hlow
      omega
    have hparse := Decimal.parse_print_end hfit
    rw [List.range'_succ, List.map_cons, List.map_cons, mountClients, hparse, ih hj]
    rfl

/-- The script mounts the client file system of each chunk that mkfs has made. --/
theorem Laid.setUp (h : Laid n maxBytes m k) : setUp m.output = (List.range' 0 k).map clientOf := by
  have hlow : Low (0 + k) := by
    rw [Nat.zero_add]
    exact h.low
  unfold Chunkfs.setUp
  rw [words_awk_output, h.wrote.written, List.map_map, List.range_eq_range']
  exact mountClients_print hlow

/-- Where block `blk` of the client file system of chunk `i` lies. --/
def clientBlockAt (i blk : Nat) : Nat := (clientOf i).start + blk * blkSize

theorem clientBlocks_end (i : Nat) : (clientOf i).start + clientBlocks * blkSize = chunkAt i + chunkSize :=
  (Nat.add_assoc ..).trans rfl

theorem clientBlockAt_bounds {i blk : Nat} (hb : blk < clientBlocks) :
    chunkAt i + blkSize ≤ clientBlockAt i blk ∧ clientBlockAt i blk + blkSize ≤ chunkAt i + chunkSize := by
  have hle : (blk + 1) * blkSize ≤ clientBlocks * blkSize := Nat.mul_le_mul_right _ hb
  have hend := clientBlocks_end i
  rw [Nat.succ_mul] at hle
  unfold clientBlockAt
  exact ⟨Nat.le_add_right _ _, by omega⟩

/-- A block of a client file system is apart from every summary. --/
theorem clientBlockAt_apart {i blk : Nat} (hb : blk < clientBlocks) (j : Nat) :
    chunkAt j + blkSize ≤ clientBlockAt i blk ∨ clientBlockAt i blk + blkSize ≤ chunkAt j := by
  obtain ⟨hlo, hhi⟩ := clientBlockAt_bounds (i := i) hb
  rcases Nat.lt_trichotomy i j with hij | rfl | hij
  · exact Or.inr (hhi.trans (chunkAt_add_le hij))
  · exact Or.inl hlo
  · have := chunkAt_add_le hij
    exact Or.inl (by have := blkSize_le_chunkSize; omega)

/-- Two blocks of client file systems are apart. --/
theorem clientBlockAt_ne {i i' blk blk' : Nat} (hb : blk < clientBlocks) (hb' : blk' < clientBlocks)
    (hne : ¬(i' = i ∧ blk' = blk)) : clientBlockAt i blk + blkSize ≤ clientBlockAt i' blk' ∨
      clientBlockAt i' blk' + blkSize ≤ clientBlockAt i blk := by
  obtain ⟨hlo, hhi⟩ := clientBlockAt_bounds (i := i) hb
  obtain ⟨hlo', hhi'⟩ := clientBlockAt_bounds (i := i') hb'
  rcases Nat.lt_trichotomy i i' with hi | rfl | hi
  · have := chunkAt_add_le hi
    exact Or.inl (by omega)
  · have order : ∀ {x y : Nat}, x < y → clientBlockAt i x + blkSize ≤ clientBlockAt i y := fun {x y} hxy => by
      have := Nat.mul_le_mul_right blkSize (Nat.succ_le_of_lt hxy)
      rw [Nat.succ_mul] at this
      unfold clientBlockAt
      omega
    rcases Nat.lt_trichotomy blk blk' with hlt | rfl | hlt
    · exact Or.inl (order hlt)
    · exact absurd ⟨rfl, rfl⟩ hne
    · exact Or.inr (order hlt)
  · have := chunkAt_add_le hi
    exact Or.inr (by omega)

/-! ### What happens on the device -/

/-- The summaries are in the file as mkfs wrote them, the client file systems are those the script has mounted, and the
    buffer of the super block holds it. --/
structure Image.Sane (s : Image) (n maxBytes : Nat) (m : Mkfs) (k : Nat) : Prop where
  laid : Laid n maxBytes { m with file := s.file } k
  clients : s.clients = (List.range' 0 k).map clientOf
  bh : ∀ b, s.poolBh = some b → ∀ p < blkSize, b p = writeChksum createPoolSummary.bytes p

/-- What a block of a client file system holds after something has happened. --/
def DeviceOp.block (k blk : Nat) (held : Block) : DeviceOp → Block
  | .client k' blk' buf => if k' = k ∧ blk' = blk then buf else held
  | _ => held

section Device
variable {s : Image} {i blk : Nat} {held : Block}

/-- What an operation does to the file: nothing, or it writes the super block as it was, or a block of a client. --/
inductive Image.Sane.Puts (s : Image) (k : Nat) (op : DeviceOp) : Prop
  | none (h : (s.step op).file = s.file) (ho : ∀ i blk buf, op = .client i blk buf → ¬(i < k ∧ blk < clientBlocks))
  | super (bh : Block) (hb : s.poolBh = some bh) (h : (s.step op).file = s.file.put poolOffset bh blkSize)
      (ho : ∀ i blk buf, op ≠ .client i blk buf)
  | client (i blk : Nat) (buf : Block) (ho : op = .client i blk buf) (hi : i < k) (hb : blk < clientBlocks)
      (h : (s.step op).file = s.file.put (clientBlockAt i blk) buf blkSize)

/-- A write that is apart from the summaries leaves them. --/
theorem Laid.put {file : RegFile} {offset : Nat} {buf : Block} (h : Laid n maxBytes { m with file := file } k)
    (hchunk : ∀ j, chunkAt j + blkSize ≤ offset ∨ offset + blkSize ≤ chunkAt j)
    (hdev : devOffset + blkSize ≤ offset ∨ offset + blkSize ≤ devOffset)
    (hpool : (file.put offset buf blkSize).HasBlock poolOffset (writeChksum createPoolSummary.bytes)) :
    Laid n maxBytes { m with file := file.put offset buf blkSize } k where
  wrote :=
    { written := h.wrote.written
      chunk := fun i hi => (h.wrote.chunk i hi).put le_rfl (hchunk i)
      pool := hpool
      dev := h.wrote.dev.put le_rfl hdev }
  low := h.low
  fits := h.fits
  last := h.last

theorem Image.commitSuper_file (s : Image) :
    s.commitSuper.file = s.file ∨ ∃ bh, s.poolBh = some bh ∧ s.commitSuper.file = s.file.put poolOffset bh blkSize := by
  unfold Image.commitSuper
  cases hb : s.poolBh with
  | none => exact Or.inl rfl
  | some bh => exact Or.inr ⟨bh, rfl, rfl⟩

theorem Image.Sane.client_eq (h : s.Sane n maxBytes m k) (i : Nat) :
    s.clients[i]? = if i < k then some (clientOf i) else none := by
  rw [h.clients, List.getElem?_map]
  by_cases hi : i < k
  · rw [if_pos hi, List.getElem?_range' hi, Nat.zero_add, Nat.one_mul]
    rfl
  · rw [if_neg hi, List.getElem?_eq_none (by rw [List.length_range']; exact Nat.not_lt.mp hi)]
    rfl

theorem Image.Sane.puts (h : s.Sane n maxBytes m k) (op : DeviceOp) : Puts s k op := by
  cases op with
  | client i blk buf =>
    by_cases hop : i < k ∧ blk < clientBlocks
    · refine .client i blk buf rfl hop.1 hop.2 ?_
      simp only [Image.step, h.client_eq, if_pos hop.1, if_pos hop.2]
      rfl
    · refine .none ?_ fun i' blk' buf' he => by cases he; exact hop
      by_cases hi : i < k
      · simp only [Image.step, h.client_eq, if_pos hi, if_neg fun hb => hop ⟨hi, hb⟩]
      · simp only [Image.step, h.client_eq, if_neg hi]
  | mount fuel =>
    refine .none ?_ nofun
    simp only [Image.step]
    split <;> rfl
  | writeSuper =>
    rcases s.commitSuper_file with hf | ⟨bh, hb, hf⟩
    · exact .none hf nofun
    · exact .super bh hb hf nofun
  | putSuper readOnly =>
    cases readOnly with
    | true => exact .none rfl nofun
    | false =>
      rcases s.commitSuper_file with hf | ⟨bh, hb, hf⟩
      · exact .none hf nofun
      · exact .super bh hb hf nofun

/-- The client file systems stay mounted. --/
theorem Image.step_clients (s : Image) (op : DeviceOp) : (s.step op).clients = s.clients := by
  have hcommit : s.commitSuper.clients = s.clients := by
    unfold Image.commitSuper
    split <;> rfl
  cases op with
  | client i blk buf =>
    simp only [Image.step]
    split
    · rfl
    · split <;> rfl
  | mount fuel =>
    simp only [Image.step]
    split <;> rfl
  | writeSuper => exact hcommit
  | putSuper readOnly =>
    cases readOnly with
    | true => rfl
    | false => exact hcommit

/-- The buffer of the super block is only filled by a mount. --/
theorem Image.step_poolBh (s : Image) (op : DeviceOp) :
    ∀ b, (s.step op).poolBh = some b → s.poolBh = some b ∨ s.sb.bread poolBlk = some b := by
  intro b hb
  cases op with
  | client i blk buf =>
    simp only [Image.step] at hb
    split at hb
    · exact Or.inl hb
    · split at hb <;> exact Or.inl hb
  | mount fuel =>
    simp only [Image.step] at hb
    split at hb
    · exact Or.inr hb
    · exact Or.inl hb
  | writeSuper =>
    simp only [Image.step, Image.commitSuper] at hb
    split at hb <;> exact Or.inl hb
  | putSuper readOnly => cases hb

/-- The summaries stay as mkfs wrote them. --/
theorem Image.Sane.step (h : s.Sane n maxBytes m k) (op : DeviceOp) : (s.step op).Sane n maxBytes m k := by
  have hpool : poolOffset + blkSize ≤ devOffset := by decide
  refine ⟨?_, (s.step_clients op).trans h.clients, fun b hb p hp => ?_⟩
  · rcases h.puts op with ⟨hf, -⟩ | ⟨bh, hb, hf, -⟩ | ⟨i, blk, buf, -, -, hb, hf⟩ <;> rw [hf]
    · exact h.laid
    · have hput : (s.file.put poolOffset bh blkSize).HasBlock poolOffset (writeChksum createPoolSummary.bytes) :=
        ⟨(RegFile.hasBlock_put ..).size, fun p hp => ((RegFile.hasBlock_put ..).byte p hp).trans (h.bh bh hb p hp)⟩
      exact h.laid.put (fun j => Or.inr (hpool.trans (Nat.le_of_add_right_le (devOffset_le_chunkAt j)))) (Or.inr hpool) hput
    · have hdev : devOffset + blkSize ≤ clientBlockAt i blk :=
        (devOffset_le_chunkAt i).trans (Nat.le_of_add_right_le (clientBlockAt_bounds hb).1)
      exact h.laid.put (clientBlockAt_apart hb) (Or.inl hdev) (h.laid.wrote.pool.put le_rfl (Or.inl (by omega)))
  · rcases s.step_poolBh op b hb with hb | hb
    · exact h.bh b hb p hp
    · obtain ⟨-, hb⟩ := Option.ite_none_right_eq_some.mp hb
      cases hb
      exact h.laid.wrote.pool.byte p hp

/-- A block of a client file system changes when the client writes it, and only then. --/
theorem Image.Sane.step_block (h : s.Sane n maxBytes m k) (op : DeviceOp) (hi : i < k) (hb : blk < clientBlocks)
    (hh : s.file.HasBlock (clientBlockAt i blk) held) :
    (s.step op).file.HasBlock (clientBlockAt i blk) (op.block i blk held) := by
  have hother : (∀ i' blk' buf, op = .client i' blk' buf → ¬(i' = i ∧ blk' = blk)) → op.block i blk held = held := fun hne => by
    cases op with
    | client i' blk' buf => exact if_neg (hne i' blk' buf rfl)
    | mount fuel => rfl
    | writeSuper => rfl
    | putSuper readOnly => rfl
  rcases h.puts op with ⟨hf, ho⟩ | ⟨bh, -, hf, ho⟩ | ⟨i', blk', buf, rfl, hi', hb', hf⟩ <;> rw [hf]
  · rw [hother]
    · exact hh
    · rintro i' blk' buf rfl ⟨rfl, rfl⟩
      exact ho i' blk' buf rfl ⟨hi, hb⟩
  · rw [hother fun i' blk' buf he => absurd he (ho i' blk' buf)]
    have hpool : poolOffset + blkSize ≤ devOffset := by decide
    have hdev : devOffset + blkSize ≤ clientBlockAt i blk :=
      (devOffset_le_chunkAt i).trans (Nat.le_of_add_right_le (clientBlockAt_bounds hb).1)
    exact hh.put le_rfl (Or.inr (by omega))
  · by_cases hsame : i' = i ∧ blk' = blk
    · obtain ⟨rfl, rfl⟩ := hsame
      rw [show DeviceOp.block i' blk' held (.client i' blk' buf) = buf from if_pos ⟨rfl, rfl⟩]
      exact RegFile.hasBlock_put ..
    · rw [show DeviceOp.block i blk held (.client i' blk' buf) = held from if_neg hsame]
      exact hh.put le_rfl (clientBlockAt_ne hb hb' hsame)

/-- A run keeps the summaries, and each client file system has what it wrote. --/
theorem Image.Sane.run (h : s.Sane n maxBytes m k) (ops : List DeviceOp) :
    (s.run ops).Sane n maxBytes m k ∧ ∀ i blk held, i < k → blk < clientBlocks →
      s.file.HasBlock (clientBlockAt i blk) held →
      (s.run ops).file.HasBlock (clientBlockAt i blk) (ops.foldl (DeviceOp.block i blk) held) := by
  induction ops generalizing s with
  | nil => exact ⟨h, fun _ _ _ _ _ hh => hh⟩
  | cons op ops ih =>
    obtain ⟨hs, hblocks⟩ := ih (h.step op)
    exact ⟨hs, fun i blk held hi hb hh => hblocks i blk _ hi hb (h.step_block op hi hb hh)⟩

end Device

/-! ### Mounting it again -/

section Mount
variable {s : Image} {fuel : Nat}

/-- The walk is that of the blocks. --/
theorem Sb.Walk.of_bread {sb sb' : Sb} {o : Nat} {cs : List ChunkInfo} {whole : Bool} (h : sb.Walk o cs whole)
    (hb : sb'.bread = sb.bread) : sb'.Walk o cs whole := by
  have hs : ∀ o, sb'.summary? o = sb.summary? o := fun o => by
    unfold Sb.summary?
    rw [hb]
  induction h with
  | last => exact .last
  | bad ho hn => exact .bad ho ((hs _).trans hn)
  | more ho hn _ ih => exact .more ho ((hs _).trans hn) ih

/-- The client file system of every chunk is found where it is mounted. --/
theorem Image.Sane.mounts (h : s.Sane n maxBytes m k) : s.sb.Mounts ((List.range' 0 k).map infoOf) where
  mounted c hc := by
    obtain ⟨i, hi, rfl⟩ := List.mem_map.mp hc
    have hmem : clientOf i ∈ s.clients := h.clients ▸ List.mem_map_of_mem hi
    exact if_pos (List.mem_map_of_mem (f := ClientMount.path) hmem)
  memory := rfl

/-- The chunk list that a mount of the device reads. --/
theorem Image.Sane.readPool (h : s.Sane n maxBytes m k) (hk : 0 < k) (hend : nextOf (devOf n).endAt (k - 1) = 0)
    (hshort : k < 10 ^ 11) (hfuel : k < fuel) :
    ∃ pi di, Chunkfs.readPool fuel s.sb = .ok (0, some pi) s.sb ∧ pi.devs = [di] ∧
      di.chunks = (List.range' 0 k).map infoOf ∧ di.rootChunk = some (infoOf 0) := by
  have hleft : leftAt 0 k = chunkAt 0 := if_neg hk.ne'
  have hwalk : s.sb.Walk (chunkAt 0) ((List.range' 0 k).map infoOf) true :=
    (hleft ▸ h.laid.walk hend (Nat.zero_add k)).of_bread rfl
  have hinnards : s.sb.innards? = some (chunkAt 0) := h.laid.innards
  have hone := roots_infoOf hk
  have hne : (List.range' 0 k).map infoOf ≠ [] := fun hnil => by
    rw [hnil] at hone
    cases hone
  have hlen : ((List.range' 0 k).map infoOf).length < fuel := by rwa [List.length_map, List.length_range']
  obtain ⟨pool, hb, hc⟩ : ∃ b, s.sb.bread poolBlk = some b ∧ checkPool b = 0 := h.laid.pool
  obtain ⟨pi, di, hdevs, hchunks, hroot, hrun⟩ := readDev_mounted h.mounts hinnards hwalk hlen
    (short_infoOf.mpr (Or.inl hshort)) hone.le (pFlags pool)
  rw [if_pos ⟨rfl, hne⟩, if_pos ⟨rfl, hone⟩] at hrun
  refine ⟨{ pi with devs := pi.devs ++ [di] }, di, ?_, by rw [hdevs]; rfl, hchunks, by rw [hroot, find_infoOf hk]⟩
  rw [readPool_mounted h.mounts hb hc, bind_ok hrun]
  rfl

end Mount

/-! ### The whole way -/

theorem RegFile.size_le_put (f : RegFile) (offset : Nat) (buf : Block) (len : Nat) : f.size ≤ (f.put offset buf len).size := by
  unfold RegFile.put
  dsimp only
  split
  · exact le_rfl
  · exact le_max_left _ _

/-- The file is no shorter. --/
def NoShorter (m m' : Mkfs) : Prop := m.file.size ≤ m'.file.size

instance : IsPreorder Mkfs NoShorter where
  refl m := le_refl m.file.size
  trans _ _ _ := Nat.le_trans

theorem writeBlock_noShorter (metadata : Block) (offset : Nat) : Stays NoShorter (writeBlock metadata offset) := fun m => by
  have hput := m.file.size_le_put offset (writeChksum metadata) (min blkSize (m.maxBytes - offset))
  unfold writeBlock
  by_cases ho : 2 ^ 63 ≤ offset
  · rw [if_pos ho]
    exact le_refl m.file.size
  rw [if_neg ho]
  by_cases hlen : min blkSize (m.maxBytes - offset) < blkSize
  · simp only [bind_apply, get_apply, set_apply, hlen, ↓reduceIte]
    exact hput
  · simp only [bind_apply, get_apply, set_apply, hlen, ↓reduceIte]
    exact hput

theorem writeChunks_noShorter (fuel devEnd chunkStart chunkId : Nat) :
    Stays NoShorter (writeChunks fuel devEnd chunkStart chunkId) := by
  induction fuel generalizing chunkStart chunkId with
  | zero => exact .throw _
  | succ fuel ih =>
    unfold writeChunks
    exact .ite (.bind (writeBlock_noShorter _ _) fun _ => .bind (.modify fun m => le_refl m.file.size) fun _ => ih _ _) (.pure _)

theorem mkfsMain_noShorter : Stays NoShorter mkfsMain := by
  unfold mkfsMain
  exact .get_bind fun m => .bind (writeBlock_noShorter _ _) fun _ => .bind (writeBlock_noShorter _ _) fun _ =>
    writeChunks_noShorter _ _ _ _

/-- mkfs comes to its end on a file that has room for a chunk, and never makes the file shorter. --/
theorem mkfsMain_lays (hfirst : chunkAt 0 + chunkSize + 1 < f.size) (hn : f.size ≤ maxBytes) (hmax : maxBytes < 2 ^ 63) :
    ∃ m k, mkfsMain ⟨f, maxBytes, []⟩ = .ok ⟨⟩ m ∧ Laid f.size maxBytes m k ∧ 0 < k ∧ ¬Fits (f.size - 2) k := by
  have hend := devOf_endAt_of_le (n := f.size) (by omega) (by omega)
  have hzero : chunkAt 0 = 40960 := rfl
  have hdev : devOffset = 36864 := rfl
  have hblk : blkSize = 4096 := rfl
  obtain ⟨k, hfits, hstop, hk⟩ := exists_fits f.size
  have hlow : Low (0 + k) := by
    unfold Low
    rw [chunkAt_eq]
    omega
  rcases mkfsMain_start f maxBytes with ⟨hsmall, -⟩ | ⟨m₁, hbytes, hstart, hrun⟩
  · omega
  have hsize : chunkSize = 10485760 := rfl
  have hroom : ∀ i, 0 ≤ i → i < 0 + k → chunkAt i + blkSize ≤ m₁.maxBytes := fun i _ hi => by
    have := fits_iff.mp (hfits i (by omega))
    rw [chunkAt_eq]
    omega
  obtain ⟨m', hok, -⟩ := writeChunks_chunks hlow (fun i _ hi => hend ▸ hfits i (by omega))
    (by rw [hend, Nat.zero_add]; exact hstop) (by omega) hroom (show k < maxBytes / chunkSize + 1 + 1 by rw [hsize]; omega)
  rw [hok] at hrun
  rcases mkfsMain_cases (f := f) hmax with ⟨-, m₂, hfail, -⟩ | ⟨k', m₂, hlaid, ⟨hok', hstop'⟩ | hfail⟩
  · rw [hrun] at hfail
    cases hfail
  · rw [hrun] at hok'
    cases hok'
    rw [hend] at hstop'
    refine ⟨m', k', hrun, hlaid, Nat.pos_of_ne_zero ?_, hstop'⟩
    rintro rfl
    exact hstop' (show chunkAt 0 + chunkSize - 1 < f.size - 2 by omega)
  · rw [hrun] at hfail
    cases hfail

/-- For these sizes the last summary points nowhere, and every identifier fits its buffer. --/
theorem Laid.ends (h : Laid n maxBytes m k) (hk : 0 < k) (hstop : ¬Fits (n - 2) k) (hend : (devOf n).endAt = n - 2)
    (hlong : n < 40962 + 10 ^ 11 * chunkSize) (hgap : ∀ c, 2 ≤ c → n ≠ 40961 + c * chunkSize) :
    nextOf (devOf n).endAt (k - 1) = 0 ∧ k < 10 ^ 11 := by
  obtain ⟨d, rfl⟩ := Nat.exists_eq_add_of_le' hk
  have hfit := fits_iff.mp (hend ▸ h.fits d (Nat.lt_succ_self d))
  have hsize : chunkSize = 10485760 := rfl
  rw [fits_iff] at hstop
  rw [hsize] at hlong
  refine ⟨?_, by omega⟩
  rw [hend, Nat.add_sub_cancel]
  refine if_neg fun hnext => hgap (d + 2) (Nat.le_add_left 2 d) ?_
  rw [chunkAt_eq, hsize] at hnext
  rw [hsize]
  omega

/-- On a file of a size that mkfs and a mount agree on, `test.sh` mounts the client file system of each chunk where a mount
    looks for it, on all of the chunk but its summary. Whatever then happens on the device, a mount finds the summaries as
    mkfs wrote them, and each client file system finds in its blocks what it wrote last. --/
theorem clients_are_disks (hfirst : 40961 + chunkSize < f.size) (hn : f.size ≤ maxBytes) (hmax : maxBytes < 2 ^ 63)
    (hlong : f.size < 40962 + 10 ^ 11 * chunkSize) (hgap : ∀ c, 2 ≤ c → f.size ≠ 40961 + c * chunkSize) :
    ∃ m, mkfsMain ⟨f, maxBytes, []⟩ = .ok ⟨⟩ m ∧ m.written ≠ [] ∧
      setUp m.output = m.written.map (fun s => { path := mountPath s.2.chunkId, start := s.2.innardsBegin }) ∧
      (∀ s ∈ m.written, s.2.innardsBegin + clientBlocks * blkSize = s.2.innardsEnd + 1) ∧
      ∀ ops : List DeviceOp, let t := Image.run ⟨m.file, setUp m.output, none⟩ ops
        (∀ fuel, m.written.length < fuel → ∃ pi di, readPool fuel t.sb = .ok (0, some pi) t.sb ∧ pi.devs = [di] ∧
          di.chunks = m.written.map (fun s => { flags := s.2.flags, chunkId := s.2.chunkId }) ∧
          di.rootChunk = di.chunks.head?) ∧
        ∀ i c blk, (setUp m.output)[i]? = some c → blk < clientBlocks →
          t.file.HasBlock (c.start + blk * blkSize) (ops.foldl (DeviceOp.block i blk)
            fun p => m.file.byte (c.start + blk * blkSize + p)) := by
  have hend := devOf_endAt_of_le (n := f.size) (by omega) (by omega)
  obtain ⟨m, k, hrun, hlaid, hk, hstop⟩ := mkfsMain_lays (show chunkAt 0 + chunkSize + 1 < f.size by
    rw [chunkAt_eq]
    omega) hn hmax
  obtain ⟨hlast, hshort⟩ := hlaid.ends hk hstop hend hlong hgap
  have hclients := hlaid.setUp
  have hlen : m.written.length = k := by rw [hlaid.wrote.written, List.length_map, List.length_range]
  have hsize : f.size ≤ m.file.size := mkfsMain_noShorter.of_ok hrun
  have hsane : Image.Sane ⟨m.file, setUp m.output, none⟩ f.size maxBytes m k := ⟨hlaid, hclients, nofun⟩
  refine ⟨m, hrun, fun hnil => ?_, ?_, fun s hs => ?_, fun ops => ?_⟩
  · rw [hnil] at hlen
    exact hk.ne hlen
  · rw [hclients, hlaid.wrote.written, List.map_map, ← List.range_eq_range']
    rfl
  · rw [hlaid.wrote.written] at hs
    obtain ⟨i, -, rfl⟩ := List.mem_map.mp hs
    have hpos : 0 < chunkAt i + chunkSize := Nat.add_pos_right _ (by decide)
    exact (clientBlocks_end i).trans (Nat.sub_add_cancel hpos).symm
  · obtain ⟨ht, hblocks⟩ := hsane.run ops
    refine ⟨fun fuel hfuel => ?_, fun i c blk hc hb => ?_⟩
    · obtain ⟨pi, di, hread, hdevs, hchunks, hroot⟩ := ht.readPool hk hlast hshort (hlen ▸ hfuel)
      refine ⟨pi, di, hread, hdevs, hchunks.trans hlaid.written_info.symm, ?_⟩
      obtain ⟨d, rfl⟩ := Nat.exists_eq_add_of_le' hk
      rw [hroot, hchunks, List.range'_succ]
      rfl
    · have heq := hsane.client_eq i
      dsimp only at heq
      rw [hc] at heq
      obtain ⟨hi, hci⟩ := Option.ite_none_right_eq_some.mp heq.symm
      cases hci
      refine hblocks i blk _ hi hb ⟨?_, fun p _ => rfl⟩
      have hfit := hlaid.fits i hi
      rw [hend] at hfit
      have hle := (clientBlockAt_bounds (i := i) hb).2
      have : chunkAt i + chunkSize - 1 < f.size - 2 := hfit
      show clientBlockAt i blk + blkSize ≤ m.file.size
      omega

/-- The file of 32 MiB that `write_pattern` makes. --/
theorem clients_are_disks_pattern : let f : RegFile := { size := 33554432, byte := fun _ => 53 }
    ∃ m, mkfsMain ⟨f, 2 ^ 40, []⟩ = .ok ⟨⟩ m ∧ m.written ≠ [] ∧
      setUp m.output = m.written.map (fun s => { path := mountPath s.2.chunkId, start := s.2.innardsBegin }) ∧
      (∀ s ∈ m.written, s.2.innardsBegin + clientBlocks * blkSize = s.2.innardsEnd + 1) ∧
      ∀ ops : List DeviceOp, let t := Image.run ⟨m.file, setUp m.output, none⟩ ops
        (∀ fuel, m.written.length < fuel → ∃ pi di, readPool fuel t.sb = .ok (0, some pi) t.sb ∧ pi.devs = [di] ∧
          di.chunks = m.written.map (fun s => { flags := s.2.flags, chunkId := s.2.chunkId }) ∧
          di.rootChunk = di.chunks.head?) ∧
        ∀ i c blk, (setUp m.output)[i]? = some c → blk < clientBlocks →
          t.file.HasBlock (c.start + blk * blkSize) (ops.foldl (DeviceOp.block i blk)
            fun p => m.file.byte (c.start + blk * blkSize + p)) := by
  intro f
  refine clients_are_disks (f := f) (by decide) (by decide) (by decide) (by decide) fun c _ => ?_
  have hsize : chunkSize = 10485760 := rfl
  rw [hsize, show f.size = 33554432 from rfl]
  omega

end Chunkfs
