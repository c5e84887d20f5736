import Chunkfs.Theorems.Search

/-! A write behind the end of a file. The new segment begins where the last one ends, wherever the write is to go, so it
    covers the offset only if that lies within the length of one segment behind the end. -/

namespace Chunkfs
open Exec Tiles

/-- A file whose segments tile what lies below `total`, and behind whose last one another can be made. --/
structure Growable (w : World) (d : Dentry) (cs : List Continuation) (total : Nat) : Prop extends Walkable w d cs where
  segmented : Segmented cs total
  sound : Sound w
  calm : Calm w
  fuel : cs.length + 1 < w.env.fuel
  number : ∀ vn, w.vnode d.inode = some vn → vn.ino = d.client.uino
  fresh : ∀ t ∈ cs.getLast?, ∀ c, w.disk.path (nextPath t) = some c → c ∉ cs.map (·.inode) ∧ w.Readable c

/-- `chunkfs_write` finds no continuation at the position and makes one, with which it goes on in `w'`. --/
def Makes (w : World) (file : File) (p : Int) (o : Opened) (w' : World) : Prop :=
  ∃ w₁, openContFile file p w = .ok (.error .enoent) w₁ ∧ createContinuation file p w₁ = .ok (.ok o) w'

/-- The continuation owns the position, the client's position lies in it, and after the write it is the one that a
    search for the position finds. --/
structure CoversIts (w : World) (file : File) (p : Int) (data : List UInt8) (o : Opened) : Prop where
  owns : o.cont.Owns p
  pos : o.ppos = p - o.cont.cd.start
  inside : 0 ≤ o.ppos ∧ o.ppos < o.cont.cd.len
  later : ∃ r w₁ w₂, writeOpened file data o w = .ok r w₁ ∧ getContAtOffset file.dentry p w₁ = .ok (.ok o.cont) w₂

section Sparse
variable {w w' u : World} {d : Dentry} {cs init : List Continuation} {t : Continuation} {c : ClientIno} {file : File}
  {total : Nat} {p : Int} {o : Opened}

theorem Makes.write (h : Makes w file p o w') (data : List UInt8) : write file data p w = writeOpened file data o w' := by
  obtain ⟨w₁, hr₁, hr₂⟩ := h
  unfold Chunkfs.write
  rw [bind_ok hr₁]
  simp only [↓reduceIte]
  rw [bind_ok hr₂]

/-- The new segment lies behind the last one. --/
theorem Segmented.grown (h : Segmented (init ++ [t]) total) (ht : total ≤ 2 ^ 63) (c : ClientIno) :
    (nextCd t).start = total ∧ Segmented (init ++ [relinked t c, appended t c]) (total + segLen) := by
  obtain ⟨mid, hinit, hmid, hend⟩ := tiled_append.mp h
  have hend : mid + t.cd.len = total := hend
  have hmid : t.cd.start = mid := hmid
  have hstart : (nextCd t).start = total := by
    show (t.cd.start + t.cd.len) % 2 ^ 64 = total
    rw [hmid, hend]
    exact Nat.mod_eq_of_lt (by omega)
  refine ⟨hstart, tiled_append.mpr ⟨mid, hinit, hmid, ?_, ?_⟩⟩
  · exact hstart.trans hend.symm
  · show mid + t.cd.len + segLen = total + segLen
    rw [hend]

/-- Behind the end of the file the search goes through the whole chain and misses. --/
theorem Growable.search_misses (h : Growable w d cs total) (ht : total ≤ 2 ^ 63) (hfile : file.dentry = d)
    (hp : total ≤ p) (hlt : p < 2 ^ 63) :
    ∃ w₁, openContFile file p w = .ok (.error .enoent) w₁ ∧ Warm w w₁ ∧ Chain w₁ d cs := by
  have hfind : cs.find? (·.cd.covers p) = none := by
    rcases h.segmented.find_cases ht (by omega) hlt with ⟨-, hin, -⟩ | ⟨-, -, hfind⟩
    · omega
    · exact hfind
  obtain ⟨r, w₁, hr, rfl, hw, hlive⟩ := (getContAtOffset_missed (h.toWalkable.follows h.calm.honest)
    (by have := h.fuel; omega) hfind).returns fun e w₁ => h.calm.not_halted
  refine ⟨w₁, ?_, hw, h.toLinked.warm hw, hlive⟩
  unfold openContFile
  rw [hfile, bind_ok hr]
  rfl

/-- Where the next file can be opened, a write behind the end makes a continuation in it. --/
theorem Growable.creates (h : Growable w d (init ++ [t]) total) (ht : total ≤ 2 ^ 63) (hfile : file.dentry = d)
    (hp : total ≤ p) (hlt : p < 2 ^ 63) (ho : w.openPath (nextPath t) contMode = .ok (c, u)) :
    ∃ w', Makes w file p (openedAt (appended t c) oCreatRdwr p) w' ∧
      Chain w' d (init ++ [relinked t c, appended t c]) ∧ w'.env = w.env := by
  obtain ⟨w₁, hmiss, hw, hchain⟩ := h.search_misses ht hfile hp hlt
  have hcan := h.sound.canFollow h.toLinked (by simp) (h.fresh t (by simp) c) h.number ho
  have hf : (init ++ [t]).length < w₁.env.fuel := by
    have := h.fuel
    rw [hw.fuel]
    omega
  obtain ⟨u₁, ho₁, hu₁⟩ := hw.openPath_ok ho
  obtain ⟨w', hgrows, hw', henv⟩ := createContinuation_calm hchain.walkable (h.calm.warm hw) hf hfile ho₁
    (hcan.warm hu₁) p
  exact ⟨w', ⟨w₁, hmiss, hgrows⟩, ((hchain.openPath ho₁).grown (hcan.warm hu₁)).warm hw', henv.trans (h.calm.env_eq hw)⟩

theorem Makes.unique {o' : Opened} {w'' : World} (h : Makes w file p o w') (h' : Makes w file p o' w'') :
    o = o' ∧ w' = w'' := by
  obtain ⟨w₁, hmiss, hcreate⟩ := h
  obtain ⟨w₁', hmiss', hcreate'⟩ := h'
  rw [hmiss] at hmiss'
  cases hmiss'
  rw [hcreate] at hcreate'
  cases hcreate'
  exact ⟨rfl, rfl⟩

/-- What a write behind the end has made, when it has made something. --/
theorem Growable.makes (h : Growable w d (init ++ [t]) total) (ht : total ≤ 2 ^ 63) (hfile : file.dentry = d)
    (hp : total ≤ p) (hlt : p < 2 ^ 63) (hm : Makes w file p o w') :
    ∃ c, o = openedAt (appended t c) oCreatRdwr p ∧ Chain w' d (init ++ [relinked t c, appended t c]) ∧
      w'.env = w.env := by
  cases ho : w.openPath (nextPath t) contMode with
  | ok opened =>
    obtain ⟨c, u⟩ := opened
    obtain ⟨w'', hm', hchain, henv⟩ := h.creates ht hfile hp hlt ho
    obtain ⟨rfl, rfl⟩ := hm.unique hm'
    exact ⟨c, rfl, hchain, henv⟩
  | error e =>
    obtain ⟨w₁, hmiss, hcreate⟩ := hm
    obtain ⟨w₁', hmiss', hw, hchain⟩ := h.search_misses ht hfile hp hlt
    rw [hmiss] at hmiss'
    cases hmiss'
    have hcalm := h.calm.warm hw
    obtain ⟨w₂, hfails, -⟩ := (createContinuation_fails hchain.walkable hcalm.honest
      (by have := h.fuel; rw [hw.fuel]; omega) (by simp) (hw.openPath_error ho) hfile p).calm hcalm
    rw [hfails] at hcreate
    cases hcreate

/-- A continuation made for an offset behind the end covers it exactly if the offset lies less than the length of a
    segment behind the end. --/
theorem covers_its_iff (h : Growable w d cs total) (ht : total ≤ 2 ^ 63) (hfile : file.dentry = d) (hp : total ≤ p)
    (hlt : p < 2 ^ 63) (hm : Makes w file p o w') (data : List UInt8) :
    CoversIts w' file p data o ↔ p < total + segLen := by
  obtain ⟨init, t, rfl⟩ : ∃ init t, cs = init ++ [t] := by
    obtain ⟨x, rest, rfl, -⟩ := h.first
    exact ⟨_, _, (List.dropLast_append_getLast (List.cons_ne_nil x rest)).symm⟩
  obtain ⟨c, rfl, hchain, henv⟩ := h.makes ht hfile hp hlt hm
  have hcalm : Calm w' := by
    rw [Calm, henv]
    exact h.calm
  have hf : (init ++ [relinked t c, appended t c]).length < w'.env.fuel := by
    have := h.fuel
    rw [henv]
    simpa using this
  obtain ⟨hstart, hseg⟩ := h.segmented.grown ht c
  constructor
  · intro hcovers
    have hin : p < (nextCd t).start + segLen := hcovers.owns.2
    rw [hstart] at hin
    exact hin
  · intro hin
    have hown : (appended t c).Owns p := by
      show ((nextCd t).start : Int) ≤ p ∧ p < (nextCd t).start + segLen
      rw [hstart]
      exact ⟨hp, hin⟩
    have hpos : (openedAt (appended t c) oCreatRdwr p).ppos = p - (appended t c).cd.start :=
      copyDownFile_eq hown.1 hlt
    refine ⟨hown, hpos, ?_, ?_⟩
    · rw [hpos]
      have := hown.1
      have := hown.2
      rw [openedAt_cont]
      omega
    · have hmem : appended t c ∈ init ++ [relinked t c, appended t c] := by simp
      obtain ⟨r, w₁, hr₁, hchain₁, henv₁, -⟩ := writeOpened_leaves hchain hcalm hf hfile
        (o := openedAt (appended t c) oCreatRdwr p) (List.mem_map_of_mem hmem) data
      have hcalm₁ : Calm w₁ := by
        rw [Calm, henv₁]
        exact hcalm
      obtain ⟨w₂, hr₂, -⟩ := (getContAtOffset_finds (hchain₁.walkable.follows hcalm₁.honest) (by rw [henv₁]; exact hf)
        (hseg.find_owner (by unfold segLen; omega) hlt hmem hown)).reads.calm hcalm₁
      exact ⟨r, w₁, w₂, hr₁, by rw [hfile]; exact hr₂⟩

end Sparse

/-! ### A file of one segment -/

theorem oneFile_growable : Growable (oneFile [1, 2] quietEnv) firstDentry [headOf firstDentry] segLen := by
  have hready := ((oneFile_quiet (show ∀ k ∈ [1, 2], 1 ≤ k ∧ k ≤ 10 by decide) (by decide)).holds (oneFile_undisturbed _)).toReady
  refine ⟨hready.toChain.walkable, ⟨rfl, rfl⟩, hready.sound, hready.calm, by decide, hready.number, fun t ht c hc => ?_⟩
  rw [hready.nextPath_free ht] at hc
  cases hc

theorem oneFile_makes {p : Int} (hp : 40960 ≤ p) (hlt : p < 2 ^ 63) :
    ∃ c w', Makes (oneFile [1, 2] quietEnv) firstFile p (openedAt (appended (headOf firstDentry) c) oCreatRdwr p) w' := by
  have hready := ((oneFile_quiet (show ∀ k ∈ [1, 2], 1 ≤ k ∧ k ≤ 10 by decide) (by decide)).holds (oneFile_undisturbed _)).toReady
  obtain ⟨c, u, ho⟩ := hready.openPath_ok rfl (by decide)
  have hgrow : Growable (oneFile [1, 2] quietEnv) firstDentry ([] ++ [headOf firstDentry]) segLen := oneFile_growable
  obtain ⟨w', hm, -⟩ := hgrow.creates (by decide) (show firstFile.dentry = firstDentry from rfl) hp hlt ho
  exact ⟨c, w', hm⟩

/-- In a file of one segment a write at its end is well placed. --/
theorem covers_its_end : ∃ o w', Makes (oneFile [1, 2] quietEnv) firstFile 40960 o w' ∧
    CoversIts w' firstFile 40960 [7] o := by
  obtain ⟨c, w', hm⟩ := oneFile_makes (p := 40960) (by decide) (by decide)
  exact ⟨_, w', hm, (covers_its_iff oneFile_growable (by decide) rfl (by decide) (by decide) hm [7]).mpr (by decide)⟩

/-- One segment further the continuation made ends where the write is to begin. --/
theorem not_covers_sparse : ∃ o w', Makes (oneFile [1, 2] quietEnv) firstFile 81920 o w' ∧
    o.cont.cd.start = 40960 ∧ o.cont.cd.len = 40960 ∧ ¬CoversIts w' firstFile 81920 [7] o := by
  obtain ⟨c, w', hm⟩ := oneFile_makes (p := 81920) (by decide) (by decide)
  have hstart : (nextCd (headOf firstDentry)).start = 40960 := by decide
  refine ⟨_, w', hm, hstart, rfl, fun hcovers => ?_⟩
  have hin : (81920 : Int) < (nextCd (headOf firstDentry)).start + segLen := hcovers.owns.2
  rw [hstart] at hin
  exact absurd hin (by decide)

end Chunkfs
