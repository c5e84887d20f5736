import Chunkfs.Theorems.Agree
import Chunkfs.Lib.Tiles

/-! The search for the element that owns an offset, in chains of any length whose segments lie one behind another,
    for every signed offset. -/

namespace Chunkfs
open Exec Word Tiles

/-- The segments of the chain tile the file from 0 to below `total`. --/
def Segmented (cs : List Continuation) (total : Nat) : Prop :=
  Tiled (·.cd.start) (·.cd.len) 0 cs total

/-- The offset lies in the segment. --/
def Continuation.Owns (c : Continuation) (offset : Int) : Prop :=
  (c.cd.start : Int) ≤ offset ∧ offset < c.cd.start + c.cd.len

/-- What the search answers: the one element that owns the offset, or `-ENOENT` outside the file. --/
structure Located (cs : List Continuation) (total : Nat) (offset : Int) (r : Except Errno Continuation) : Prop where
  found : (∃ c, r = .ok c) ↔ 0 ≤ offset ∧ offset < total
  owner : ∀ c, r = .ok c ↔ c ∈ cs ∧ c.Owns offset
  outside : ¬(0 ≤ offset ∧ offset < total) → r = .error .enoent

/-- The client file that is opened: on the element that owns the offset, at the place of the offset in it, from which
    the offset is restored. --/
structure OpenedIn (cs : List Continuation) (file : File) (offset : Int) (o : Opened) : Prop where
  mem : o.cont ∈ cs
  inode : o.file.inode = o.cont.inode
  pos : o.ppos = offset - o.cont.cd.start
  inside : 0 ≤ o.ppos ∧ o.ppos < o.cont.cd.len
  filePos : o.file.pos = o.ppos
  back : (copyUpFile file o.file o.cont.cd.start).pos = offset

/-- The search ends, changes nothing on disk and answers right, and so does opening the client file. --/
structure FindsOwner (w : World) (d : Dentry) (cs : List Continuation) (total : Nat) (offset : Int) : Prop where
  search : ∃ r w', getContAtOffset d offset w = .ok r w' ∧ w'.disk = w.disk ∧ Located cs total offset r
  opening : ∀ file : File, file.dentry = d → ∃ r w', openContFile file offset w = .ok r w' ∧ w'.disk = w.disk ∧
    (0 ≤ offset ∧ offset < total → ∃ o, r = .ok o ∧ OpenedIn cs file offset o) ∧
    (¬(0 ≤ offset ∧ offset < total) → r = .error .enoent)

section Covers
variable {w : World} {d : Dentry} {vn : Vnode} {cs : List Continuation} {c : Continuation} {total : Nat} {offset : Int}

/-- The test of the code decides ownership. A negative offset is compared as a number from `2 ^ 63` on, which is past
    every segment of a file that ends there. --/
theorem Segmented.covers_iff (h : Segmented cs total) (ht : total < 2 ^ 64) (hneg : offset < 0 → total ≤ 2 ^ 63)
    (hc : c ∈ cs) (hlo : -(2 ^ 63) ≤ offset) (hhi : offset < 2 ^ 63) : c.cd.covers offset = true ↔ c.Owns offset := by
  have hend := (h.bounds.2 c hc).2
  have hu := u64_lt offset
  have hmod : (c.cd.start + c.cd.len) % 2 ^ 64 = c.cd.start + c.cd.len := Nat.mod_eq_of_lt (by omega)
  unfold Continuation.Owns
  simp only [ContData.covers, hmod, Bool.and_eq_true, decide_eq_true_eq]
  by_cases h₀ : 0 ≤ offset
  · have := u64_of_nonneg h₀ (by omega)
    omega
  · have := hneg (Int.not_le.mp h₀)
    have hwrapped : (u64 offset : Int) = offset + 2 ^ 64 := by
      unfold u64
      omega
    omega

theorem Segmented.owns_iff (p : Nat) : c.Owns p ↔ Tiles.Owns (·.cd.start) (·.cd.len) c p := by
  unfold Continuation.Owns Tiles.Owns
  dsimp only
  omega

theorem Segmented.find_owner (h : Segmented cs total) (ht : total < 2 ^ 64) (hhi : offset < 2 ^ 63) (hc : c ∈ cs)
    (hown : c.Owns offset) : cs.find? (·.cd.covers offset) = some c := by
  obtain ⟨p, rfl⟩ := Int.eq_ofNat_of_zero_le (a := offset) (by have := hown.1; omega)
  refine Tiled.find?_owner h (fun y hy => ?_) hc ((Segmented.owns_iff p).mp hown)
  exact (h.covers_iff ht (fun hneg => by omega) hy (by omega) hhi).trans (Segmented.owns_iff p)

/-- Inside the file the search stops at the owner, outside at the end of the chain. --/
theorem Segmented.find_cases (h : Segmented cs total) (ht : total ≤ 2 ^ 63) (hlo : -(2 ^ 63) ≤ offset)
    (hhi : offset < 2 ^ 63) :
    (0 ≤ offset ∧ offset < total ∧ ∃ c ∈ cs, c.Owns offset ∧ cs.find? (·.cd.covers offset) = some c) ∨
      (¬(0 ≤ offset ∧ offset < total) ∧ (∀ c ∈ cs, ¬c.Owns offset) ∧ cs.find? (·.cd.covers offset) = none) := by
  by_cases hin : 0 ≤ offset ∧ offset < total
  · obtain ⟨p, rfl⟩ := Int.eq_ofNat_of_zero_le hin.1
    obtain ⟨c, hc, hown⟩ := Tiled.exists_owner (p := p) h (Nat.zero_le p) (by omega)
    have hown' := (Segmented.owns_iff p).mpr hown
    exact Or.inl ⟨hin.1, hin.2, c, hc, hown', h.find_owner (by omega) hhi hc hown'⟩
  · have hnone : ∀ c ∈ cs, ¬c.Owns offset := by
      intro c hc hown
      have hend := (h.bounds.2 c hc).2
      unfold Continuation.Owns at hown
      omega
    refine Or.inr ⟨hin, hnone, List.find?_eq_none.mpr fun c hc hcov => ?_⟩
    exact hnone c hc ((h.covers_iff (by omega) (fun _ => ht) hc hlo hhi).mp hcov)

theorem openedIn_openedAt {file : File} (h : Segmented cs total) (ht : total ≤ 2 ^ 63) (hc : c ∈ cs)
    (hown : c.Owns offset) (flags : Nat) : OpenedIn cs file offset (openedAt c flags offset) := by
  have hend := (h.bounds.2 c hc).2
  unfold Continuation.Owns at hown
  have hpos : (openedAt c flags offset).ppos = offset - c.cd.start := copyDownFile_eq hown.1 (by omega)
  refine ⟨hc, rfl, hpos, ?_, rfl, ?_⟩
  · rw [hpos]
    show 0 ≤ offset - c.cd.start ∧ offset - c.cd.start < c.cd.len
    omega
  · rw [openedAt_cont, copyUpFile_openedAt c _ (by omega) (by omega)]

/-- In every chain whose segments tile the file up to `2 ^ 63`, the search finds the owner of every signed offset. --/
theorem search_finds_owner (h : Traced w d vn cs) (hs : Segmented cs total) (ht : total ≤ 2 ^ 63) (hcalm : Calm w)
    (hf : cs.length < w.env.fuel) (hlo : -(2 ^ 63) ≤ offset) (hhi : offset < 2 ^ 63) :
    FindsOwner w d cs total offset := by
  have hfollows := h.follows hcalm.honest
  rcases hs.find_cases ht hlo hhi with ⟨h₀, hlt, c, hc, hown, hfind⟩ | ⟨hout, hnone, hfind⟩
  · have hfinds := getContAtOffset_finds hfollows hf hfind
    obtain ⟨w₁, hr₁, hw₁⟩ := hfinds.reads.calm hcalm
    refine ⟨⟨.ok c, w₁, hr₁, hw₁.disk, ⟨fun _ => ⟨h₀, hlt⟩, fun _ => ⟨c, rfl⟩⟩, fun c' => ?_,
      fun hout => absurd ⟨h₀, hlt⟩ hout⟩, fun file hfile => ?_⟩
    · constructor
      · intro heq
        cases heq
        exact ⟨hc, hown⟩
      · rintro ⟨hc', hown'⟩
        rw [hs.find_owner (by omega) hhi hc' hown'] at hfind
        cases hfind
        rfl
    · obtain ⟨w₂, hr₂, hw₂⟩ := (openContFile_finds hcalm.honest hfile hfinds).reads.calm hcalm
      exact ⟨.ok _, w₂, hr₂, hw₂.disk, fun _ => ⟨_, rfl, openedIn_openedAt hs ht hc hown file.flags⟩,
        fun hout => absurd ⟨h₀, hlt⟩ hout⟩
  · have hreads := getContAtOffset_enoent hfollows hf hfind
    obtain ⟨w₁, hr₁, hw₁⟩ := hreads.calm hcalm
    refine ⟨⟨.error .enoent, w₁, hr₁, hw₁.disk, ⟨nofun, fun hin => absurd hin hout⟩,
      fun c => ⟨nofun, fun ⟨hc, hown⟩ => absurd hown (hnone c hc)⟩, fun _ => rfl⟩, fun file hfile => ?_⟩
    obtain ⟨w₂, hr₂, hw₂⟩ := (openContFile_error hfile hreads).calm hcalm
    exact ⟨.error .enoent, w₂, hr₂, hw₂.disk, fun hin => absurd hin hout, fun _ => rfl⟩

end Covers

/-- The chain of the two inodes. --/
def twoChain (last : Nat) : List Continuation :=
  [loaded firstIno ⟨secondIno.uino, 0, 0, segLen⟩ 1, loaded secondIno ⟨last, firstIno.uino, segLen, segLen⟩ 2]

theorem twoChain_segmented (last : Nat) : Segmented (twoChain last) (2 * segLen) := ⟨rfl, rfl, rfl⟩

theorem twoLinked_traced {last : Nat} (hlast : last = 0 ∨ last = firstIno.uino) :
    Traced (twoLinked last) firstDentry twoLinkedVnode (twoChain last) := by
  have hlt : last < 2 ^ 64 := by
    rcases hlast with rfl | rfl
    · decide
    · exact firstIno_inRange.uino_lt
  have hload : ∀ c ∈ twoChain last, Loadable (twoLinked last) c := by
    intro c hc
    rcases List.mem_pair.mp hc with rfl | rfl
    · exact ⟨rfl, List.mem_cons_self, twoLinked_first, Or.inl rfl⟩
    · exact ⟨rfl, List.mem_cons_of_mem _ List.mem_cons_self, twoLinked_second hlt, Or.inl rfl⟩
  refine ⟨(twoLinked_vnode last).1, rfl, ⟨_, _, rfl, rfl, firstIno_inRange.chunkId_uino.symm⟩, hload,
    List.isChain_pair.mpr ⟨?_, secondIno_inRange.uino_ne_zero, secondIno_inRange.chunkId_uino.symm, ?_⟩, ?_⟩
  · exact fun heq => absurd (secondIno_inRange.uino_inj firstIno_inRange heq) (by decide)
  · refine if_pos ?_
    show contPath (uinoToChunkId secondIno.uino) 1 (uinoToIno firstIno.uino) = contPath 2 1 20
    rw [secondIno_inRange.chunkId_uino, firstIno_inRange.ino_uino]
    rfl
  · rintro c ⟨⟩
    exact hlast.symm

theorem twoLinked_chain : Chain (twoLinked 0) firstDentry (twoChain 0) := by
  have htraced := twoLinked_traced (Or.inl rfl)
  have hdisk : ∀ c ∈ twoChain 0, OnDisk (twoLinked 0) c := by
    intro c hc
    have hload := htraced.elem c hc
    rcases List.mem_pair.mp hc with rfl | rfl
    · exact ⟨firstIno_inRange, hload.pool, rfl, rfl, hload.data⟩
    · exact ⟨secondIno_inRange, hload.pool, rfl, rfl, hload.data⟩
  have hvnode := (twoLinked_vnode 0).1
  refine ⟨⟨⟨rfl, _, hvnode, rfl, firstIno_inRange.chunkId_uino⟩, ⟨_, _, rfl, rfl⟩, hdisk,
    List.isChain_pair.mpr ⟨rfl, rfl⟩, ?_, ?_, by decide⟩, fun _ _ => rfl⟩
  · rintro c ⟨⟩
    rfl
  · intro vn hv c hc
    rw [hvnode] at hv
    cases hv
    cases List.mem_singleton.mp hc
    exact fun heq => absurd (secondIno_inRange.uino_inj firstIno_inRange heq) (by decide)

/-- The last inode leads back to the head, and the offset lies in its segment. --/
theorem finds_owner_twoLinked :
    FindsOwner (twoLinked firstIno.uino) firstDentry (twoChain firstIno.uino) (2 * segLen) 50000 :=
  search_finds_owner (twoLinked_traced (Or.inr rfl)) (twoChain_segmented _) (by decide) (twoLinked_calm _) (by decide)
    (by decide) (by decide)

end Chunkfs
