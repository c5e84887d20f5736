import Chunkfs.Dir
import Chunkfs.Theorems.Position
import Chunkfs.Theorems.NewFile

/-! Listing a directory and seeking in it. A directory has one segment, of the length of every segment, and both
    operations look for the segment of a position before they leave the rest to the client. -/

namespace Chunkfs
open Exec Word Run

/-- The directory of `d`: it has the continuation data that every inode is given when it is made or looked up, and the
    client file systems answer every call. --/
structure Directory (w : World) (d : Dentry) (k : Continuation) : Prop where
  chain : Chain w d [k]
  initial : k.cd = initCd
  calm : Calm w
  fuel : 1 < w.env.fuel

section Directory
variable {w w' : World} {d : Dentry} {k : Continuation} {file : File} {p : Int}

theorem segLen_eq : segLen = 40960 := rfl

theorem initCd_covers (h₀ : -2 ^ 63 ≤ p) (hlt : p < 2 ^ 63) : initCd.covers p = true ↔ 0 ≤ p ∧ p < segLen := by
  unfold ContData.covers initCd segLen u64
  simp only [Bool.and_eq_true, decide_eq_true_eq]
  omega

theorem Directory.inode (h : Directory w d k) : k.inode = d.client := by
  obtain ⟨c, rest, hc, hinode⟩ := h.chain.first
  cases hc
  exact hinode

/-- The client file that is opened for a position below the length of a segment is at that position. --/
theorem Directory.opens (h : Directory w d k) (hfile : file.dentry = d) (h₀ : 0 ≤ p) (hlt : p < segLen) :
    ∃ w', openContFile file p w = .ok (.ok ⟨p, ⟨d.client, p, file.flags⟩, k⟩) w' ∧ Warm w w' := by
  rw [segLen_eq] at hlt
  have hcov : [k].find? (·.cd.covers p) = some k := by
    rw [List.find?_singleton, h.initial, if_pos ((initCd_covers (by omega) (by omega)).mpr ⟨h₀, hlt⟩)]
  obtain ⟨w', hr, hw⟩ := ((openContFile_finds h.calm.honest hfile
    (getContAtOffset_finds (h.chain.walkable.follows h.calm.honest) h.fuel hcov)).reads).calm h.calm
  have hpos : copyDownFile p k.cd.start = p := by
    have hstart : initCd.start = 0 := rfl
    rw [h.initial, copyDownFile, hstart, Int.natCast_zero, Int.sub_zero]
    exact s64_of_mem (by omega) (by omega)
  refine ⟨w', ?_, hw⟩
  rw [hr]
  simp only [openedAt, hpos, h.inode]

/-- No segment of it covers another position. --/
theorem Directory.misses (h : Directory w d k) (hfile : file.dentry = d) (hlow : -2 ^ 63 ≤ p) (hhigh : p < 2 ^ 63)
    (hout : ¬(0 ≤ p ∧ p < segLen)) : ∃ w', openContFile file p w = .ok (.error .enoent) w' ∧ Warm w w' := by
  have hcov : [k].find? (·.cd.covers p) = none := by
    rw [List.find?_singleton, h.initial, if_neg (fun hc => hout ((initCd_covers hlow hhigh).mp hc))]
  exact (openContFile_error hfile (getContAtOffset_enoent (h.chain.walkable.follows h.calm.honest) h.fuel hcov)).calm h.calm

theorem Directory.warm (h : Directory w d k) (hw : Warm w w') : Directory w' d k :=
  ⟨h.chain.warm hw, h.initial, h.calm.warm hw, by rw [hw.fuel]; exact h.fuel⟩

/-- Closing takes the position of the client file over. --/
theorem Directory.closes (h : Directory w d k) (hfile : file.dentry = d) (pos : Int) (flags : Nat) :
    ∃ w', closeContFile file ⟨d.client, pos, flags⟩ k w = .ok { file with pos := s64 pos } w' ∧ Directory w' d k := by
  obtain ⟨vn, hv, -⟩ := h.chain.head.vnode
  obtain ⟨i, hi, -⟩ := Disk.inode_of_contData? (h.chain.elem k List.mem_cons_self).data
  have hi' : w.inode? d.client = some i := by
    rw [← h.inode]
    exact inode?_of_live (h.chain.live k List.mem_cons_self) hi
  obtain ⟨w', hr, hw⟩ := closeContFile_calm h.chain h.calm h.fuel hv ⟨d.client, pos, flags⟩ hi' hfile k
  have hcopied : Directory (w.copiedUp d vn i [k]) d k :=
    ⟨h.chain.kept (.copiedUp hv i), h.initial, h.calm, h.fuel⟩
  refine ⟨w', ?_, hcopied.warm hw⟩
  rw [hr, h.initial]
  simp only [copyUpFile, initCd, Int.natCast_zero, Int.add_zero]

theorem Directory.dirLlseek_inside (h : Directory w d k) (hfile : file.dentry = d) (h₀ : 0 ≤ p) (hlt : p < segLen)
    (llseek : ClientFile → Int → Origin → Sought) (origin : Origin) {s : Sought}
    (hs : llseek ⟨d.client, p, file.flags⟩ p origin = s) :
    ∃ w', dirLlseek llseek file p origin w = .ok (int32 s.ret, { file with pos := s64 s.pos }) w' := by
  subst hs
  obtain ⟨w₁, hr₁, hw₁⟩ := h.opens hfile h₀ hlt
  obtain ⟨w₂, hr₂, -⟩ := (h.warm hw₁).closes hfile (llseek ⟨d.client, p, file.flags⟩ p origin).pos file.flags
  refine ⟨w₂, ?_⟩
  unfold dirLlseek
  rw [bind_ok hr₁]
  dsimp only
  rw [bind_ok hr₂]
  rfl

theorem Directory.dirLlseek_outside (h : Directory w d k) (hfile : file.dentry = d) (hlow : -2 ^ 63 ≤ p) (hhigh : p < 2 ^ 63)
    (hout : ¬(0 ≤ p ∧ p < segLen)) (llseek : ClientFile → Int → Origin → Sought) (origin : Origin) :
    ∃ w', dirLlseek llseek file p origin w = .ok (Errno.enoent.ret, file) w' := by
  obtain ⟨w₁, hr₁, -⟩ := h.misses hfile hlow hhigh hout
  refine ⟨w₁, ?_⟩
  unfold dirLlseek
  rw [bind_ok hr₁]
  rfl

end Directory

/-! ### Seeking -/

/-- For a file at `f` and one at `offset` the client's seek does the same, and what it returns is an `int`. --/
def SeeksAlike (size maxBytes f offset : Int) : Origin → Prop
  | .set => offset ≤ maxBytes ∨ f = offset
  | .cur => f = offset
  | .fromEnd => if size + offset ≤ maxBytes then size + offset < 2 ^ 31 else f = offset
  | .data => offset < size ∧ offset ≤ maxBytes ∨ f = offset
  | .hole => if offset < size ∧ size ≤ maxBytes then size < 2 ^ 31 else f = offset

section Alike
variable {size maxBytes f offset x : Int} {c : ClientIno} {flags : Nat}

theorem int32_errno {e : Errno} (he : e.code < 2 ^ 31) : int32 e.ret = e.ret :=
  int32_of_mem (by unfold Errno.ret; omega) (by unfold Errno.ret; omega)

/-- The same place is set for a file at `f` and for one at `offset`. --/
theorem vfsSetpos_alike (hmax : maxBytes < 2 ^ 63) (h₀ : 0 ≤ offset) (hlt : offset < 2 ^ 63) :
    (int32 (vfsSetpos ⟨c, offset, flags⟩ maxBytes x).ret = (vfsSetpos ⟨c, f, flags⟩ maxBytes x).ret ∧
        s64 (vfsSetpos ⟨c, offset, flags⟩ maxBytes x).pos = (vfsSetpos ⟨c, f, flags⟩ maxBytes x).pos) ↔
      if 0 ≤ x ∧ x ≤ maxBytes then x < 2 ^ 31 else f = offset := by
  unfold vfsSetpos
  split
  · dsimp only
    rw [s64_of_mem (by omega) (by omega)]
    unfold int32
    omega
  · dsimp only
    rw [int32_errno (by decide), s64_of_mem (by omega) (by omega)]
    exact ⟨fun h => h.2.symm, fun h => ⟨rfl, h.symm⟩⟩

/-- Both fail. --/
theorem enxio_alike (h₀ : 0 ≤ offset) (hlt : offset < 2 ^ 63) :
    (int32 Errno.enxio.ret = Errno.enxio.ret ∧ s64 offset = f) ↔ f = offset := by
  rw [int32_errno (by decide), s64_of_mem (by omega) (by omega)]
  exact ⟨fun h => h.2.symm, fun h => ⟨rfl, h.symm⟩⟩

theorem vfsSetpos_of_le {file : ClientFile} (h₀ : 0 ≤ x) (h : x ≤ maxBytes) : vfsSetpos file maxBytes x = ⟨x, x⟩ :=
  if_pos ⟨h₀, h⟩

theorem vfsSetpos_of_gt {file : ClientFile} (h : maxBytes < x) :
    vfsSetpos file maxBytes x = ⟨Errno.einval.ret, file.pos⟩ := if_neg fun hx => Int.not_le.mpr h hx.2

/-- Relative to the position, the places are those of the two positions. --/
theorem cur_alike (hf : 0 ≤ f) (h₀ : 0 < offset) (hlt : offset < 40960) :
    (int32 (vfsSetpos ⟨c, offset, flags⟩ maxBytes (offset + offset)).ret =
          (vfsSetpos ⟨c, f, flags⟩ maxBytes (f + offset)).ret ∧
        s64 (vfsSetpos ⟨c, offset, flags⟩ maxBytes (offset + offset)).pos =
          (vfsSetpos ⟨c, f, flags⟩ maxBytes (f + offset)).pos) ↔ f = offset := by
  have hneg : Errno.einval.ret = -22 := rfl
  rcases Int.lt_or_le maxBytes (offset + offset) with ho | ho <;> rcases Int.lt_or_le maxBytes (f + offset) with hfo | hfo
  · rw [vfsSetpos_of_gt ho, vfsSetpos_of_gt hfo]
    dsimp only
    rw [int32_errno (by decide), s64_of_mem (by omega) (by omega)]
    omega
  · rw [vfsSetpos_of_gt ho, vfsSetpos_of_le (by omega) hfo]
    dsimp only
    rw [int32_errno (by decide), hneg]
    omega
  · rw [vfsSetpos_of_le (by omega) ho, vfsSetpos_of_gt hfo]
    dsimp only
    rw [int32_of_mem (by omega) (by omega), hneg]
    omega
  · rw [vfsSetpos_of_le (by omega) ho, vfsSetpos_of_le (by omega) hfo]
    dsimp only
    rw [int32_of_mem (by omega) (by omega), s64_of_mem (by omega) (by omega)]
    omega

/-- The client's seek is that of a file at another position. --/
theorem seeksAlike_iff (hmax : maxBytes < 2 ^ 63) (hsize : 0 ≤ size) (hf : 0 ≤ f) (h₀ : 0 ≤ offset) (hlt : offset < segLen)
    (origin : Origin) :
    (int32 (genericFileLlseek size maxBytes ⟨c, offset, flags⟩ offset origin).ret =
          (genericFileLlseek size maxBytes ⟨c, f, flags⟩ offset origin).ret ∧
        s64 (genericFileLlseek size maxBytes ⟨c, offset, flags⟩ offset origin).pos =
          (genericFileLlseek size maxBytes ⟨c, f, flags⟩ offset origin).pos) ↔
      SeeksAlike size maxBytes f offset origin := by
  rw [segLen_eq] at hlt
  have hbelow : offset < 2 ^ 63 := by omega
  cases origin with
  | set =>
    refine (vfsSetpos_alike hmax h₀ hbelow).trans ?_
    simp only [SeeksAlike]
    split <;> omega
  | cur =>
    simp only [genericFileLlseek, SeeksAlike]
    by_cases hzero : offset = 0
    · simp only [hzero, ↓reduceIte]
      rw [int32_of_mem (by omega) (by omega), s64_of_mem (by omega) (by omega)]
      omega
    · simp only [hzero, ↓reduceIte]
      exact cur_alike hf (by omega) hlt
  | fromEnd =>
    refine (vfsSetpos_alike hmax h₀ hbelow).trans ?_
    simp only [SeeksAlike, show 0 ≤ size + offset by omega, true_and]
  | data =>
    simp only [genericFileLlseek, SeeksAlike]
    split
    · exact (enxio_alike h₀ hbelow).trans ⟨Or.inr, fun h => h.resolve_left (by omega)⟩
    · rw [vfsSetpos_alike hmax h₀ hbelow]
      split <;> omega
  | hole =>
    simp only [genericFileLlseek, SeeksAlike]
    split
    · rename_i hle
      rw [if_neg (by omega)]
      exact enxio_alike h₀ hbelow
    · rename_i hgt
      rw [vfsSetpos_alike hmax h₀ hbelow]
      simp only [hsize, true_and, Int.not_le.mp hgt]

/-- No seek of the client fails with `ENOENT`. --/
theorem genericFileLlseek_ret_ne {file : ClientFile} (hpos : 0 ≤ file.pos) (origin : Origin) :
    (genericFileLlseek size maxBytes file offset origin).ret ≠ Errno.enoent.ret := by
  have hneg : Errno.enoent.ret = -2 := rfl
  have hplace (x : Int) (hx : 0 ≤ x) : x ≠ Errno.enoent.ret := by
    rw [hneg]
    omega
  have hset (x : Int) : (vfsSetpos file maxBytes x).ret ≠ Errno.enoent.ret := by
    unfold vfsSetpos
    split
    · rename_i h
      exact hplace x h.1
    · exact (show Errno.einval.ret ≠ Errno.enoent.ret by decide)
  have hnxio : Errno.enxio.ret ≠ Errno.enoent.ret := by decide
  cases origin <;> simp only [genericFileLlseek]
  · exact hset offset
  · split
    · exact hplace _ hpos
    · exact hset _
  · exact hset _
  · split
    · exact hnxio
    · exact hset _
  · split
    · exact hnxio
    · exact hset _

end Alike

/-- The seek in a directory returns what the client's does for a client file at the file's position, and leaves the
    position that the client's leaves. --/
def SeeksAsClient (llseek : ClientFile → Int → Origin → Sought) (file : File) (offset : Int) (origin : Origin) (w : World) :
    Prop :=
  ∃ ret file' w', dirLlseek llseek file offset origin w = .ok (ret, file') w' ∧
    ret = (llseek ⟨file.dentry.client, file.pos, file.flags⟩ offset origin).ret ∧
    file'.pos = (llseek ⟨file.dentry.client, file.pos, file.flags⟩ offset origin).pos

/-- It does so if and only if the offset is a position in the first segment, for which the client's seek does the same
    whether its file is there or at the file's position. --/
theorem dir_llseek_iff {w : World} {k : Continuation} {file : File} (h : Directory w file.dentry k) (hpos : 0 ≤ file.pos)
    (size maxBytes offset : Int) (hsize : 0 ≤ size) (hmax : maxBytes < 2 ^ 63) (hlow : -2 ^ 63 ≤ offset) (hhigh : offset < 2 ^ 63)
    (origin : Origin) : SeeksAsClient (genericFileLlseek size maxBytes) file offset origin w ↔
      0 ≤ offset ∧ offset < segLen ∧ SeeksAlike size maxBytes file.pos offset origin := by
  by_cases hin : 0 ≤ offset ∧ offset < segLen
  · obtain ⟨w', hr⟩ := h.dirLlseek_inside rfl hin.1 hin.2 (genericFileLlseek size maxBytes) origin rfl
    rw [← seeksAlike_iff hmax hsize hpos hin.1 hin.2 origin]
    constructor
    · rintro ⟨ret, file', w'', hr', hret, hleft⟩
      rw [hr] at hr'
      cases hr'
      exact ⟨hin.1, hin.2, hret, hleft⟩
    · rintro ⟨-, -, hret, hleft⟩
      exact ⟨_, _, w', hr, hret, hleft⟩
  · obtain ⟨w', hr⟩ := h.dirLlseek_outside rfl hlow hhigh hin (genericFileLlseek size maxBytes) origin
    refine ⟨?_, fun ha => absurd ⟨ha.1, ha.2.1⟩ hin⟩
    rintro ⟨ret, file', w'', hr', hret, -⟩
    rw [hr] at hr'
    cases hr'
    have hclient : 0 ≤ (⟨file.dentry.client, file.pos, file.flags⟩ : ClientFile).pos := hpos
    exact absurd hret.symm (genericFileLlseek_ret_ne hclient origin)

/-! ### Listing -/

section Listing
variable {α : Type} {own : ClientFile → Int → Listing α} {w w' : World} {d : Dentry} {k : Continuation} {file : File} {p : Int}

/-- The client's positions are byte offsets. --/
def ByteOffsets (own : ClientFile → Int → Listing α) : Prop :=
  ∀ file p, 0 ≤ p → p < 2 ^ 63 → 0 ≤ (own file p).ctxPos ∧ (own file p).ctxPos < 2 ^ 63

theorem Directory.iterate_inside (h : Directory w d k) (hfile : file.dentry = d) (h₀ : 0 ≤ file.pos) (hlt : file.pos < segLen)
    (own : ClientFile → Int → Listing α) (p : Int) {l : Listing α} (hl : own ⟨d.client, file.pos, file.flags⟩ p = l) :
    ∃ w', iterate own file p w = .ok ⟨l.entries, l.ctxPos, if l.ret = Errno.enodata.ret then 0 else l.ret,
      { file with pos := s64 l.filePos }⟩ w' ∧ Directory w' d k := by
  subst hl
  obtain ⟨w₁, hr₁, hw₁⟩ := h.opens hfile h₀ hlt
  obtain ⟨w₂, hr₂, hd⟩ := (h.warm hw₁).closes hfile (own ⟨d.client, file.pos, file.flags⟩ p).filePos file.flags
  refine ⟨w₂, ?_, hd⟩
  unfold iterate
  rw [bind_ok hr₁]
  dsimp only
  rw [bind_ok hr₂]
  rfl

theorem Directory.iterate_outside (h : Directory w d k) (hfile : file.dentry = d) (h₀ : 0 ≤ file.pos) (hlt : file.pos < 2 ^ 63)
    (hout : segLen ≤ file.pos) (own : ClientFile → Int → Listing α) (p : Int) :
    ∃ w', iterate own file p w = .ok ⟨[], p, Errno.enoent.ret, file⟩ w' ∧ Directory w' d k := by
  obtain ⟨w₁, hr₁, hw₁⟩ := h.misses hfile (by omega) hlt (by omega)
  refine ⟨w₁, ?_, h.warm hw₁⟩
  unfold iterate
  rw [bind_ok hr₁]
  rfl

/-- A call at `p` is the client's, which hands out `l` there: in the first segment `ENODATA` is taken for the end, and
    beyond it nothing is found. --/
def ListsAlike (l : Listing α) (p : Int) : Prop :=
  if p < segLen then l.ret ≠ Errno.enodata.ret else l.entries = [] ∧ l.ctxPos = p ∧ l.ret = Errno.enoent.ret

/-- A listing at the file's position delivers what the client's own does there, and leaves the same position. --/
def ListsAsClient (own : ClientFile → Int → Listing α) (file : File) (w : World) : Prop :=
  ∃ r w', iterate own file file.pos w = .ok r w' ∧
    r.entries = (own ⟨file.dentry.client, file.pos, file.flags⟩ file.pos).entries ∧
    r.ctxPos = (own ⟨file.dentry.client, file.pos, file.flags⟩ file.pos).ctxPos ∧
    r.ret = (own ⟨file.dentry.client, file.pos, file.flags⟩ file.pos).ret

theorem listsAsClient_iff (h : Directory w file.dentry k) (h₀ : 0 ≤ file.pos) (hlt : file.pos < 2 ^ 63)
    (own : ClientFile → Int → Listing α) :
    ListsAsClient own file w ↔ ListsAlike (own ⟨file.dentry.client, file.pos, file.flags⟩ file.pos) file.pos := by
  unfold ListsAsClient ListsAlike
  generalize hl : own ⟨file.dentry.client, file.pos, file.flags⟩ file.pos = l
  split
  · rename_i hin
    obtain ⟨w', hr, -⟩ := h.iterate_inside rfl h₀ hin own file.pos hl
    have hzero : Errno.enodata.ret ≠ 0 := by decide
    constructor
    · rintro ⟨r, w'', hr', -, -, hret⟩ hnodata
      rw [hr] at hr'
      cases hr'
      rw [if_pos hnodata, hnodata] at hret
      exact hzero hret.symm
    · intro hne
      exact ⟨_, w', hr, rfl, rfl, if_neg hne⟩
  · rename_i hout
    obtain ⟨w', hr, -⟩ := h.iterate_outside rfl h₀ hlt (by omega) own file.pos
    constructor
    · rintro ⟨r, w'', hr', he, hpos, hret⟩
      rw [hr] at hr'
      cases hr'
      exact ⟨he.symm, hpos.symm, hret.symm⟩
    · rintro ⟨he, hpos, hret⟩
      exact ⟨_, w', hr, he.symm, hpos.symm, hret.symm⟩

/-- Every call returns, and leaves the directory a directory. --/
theorem Directory.iterate_ok (h : Directory w file.dentry k) (h₀ : 0 ≤ file.pos) (hlt : file.pos < 2 ^ 63)
    (own : ClientFile → Int → Listing α) :
    ∃ r w', iterate own file file.pos w = .ok r w' ∧ Directory w' file.dentry k ∧ r.file.dentry = file.dentry ∧
      r.file.flags = file.flags ∧
      (r.ctxPos = (own ⟨file.dentry.client, file.pos, file.flags⟩ file.pos).ctxPos ∨ r.ctxPos = file.pos) := by
  by_cases hin : file.pos < segLen
  · obtain ⟨w', hr, hd⟩ := h.iterate_inside rfl h₀ hin own file.pos rfl
    exact ⟨_, w', hr, hd, rfl, rfl, Or.inl rfl⟩
  · obtain ⟨w', hr, hd⟩ := h.iterate_outside rfl h₀ hlt (by omega) own file.pos
    exact ⟨_, w', hr, hd, rfl, rfl, Or.inr rfl⟩

end Listing

/-- A process that lists a directory and one that lists the client's. --/
structure SideBySide (α : Type) where
  chunkfs : Reader α
  client : ClientReader α

namespace SideBySide
variable {α : Type} {own : ClientFile → Int → Listing α} {k : Continuation} {s t : SideBySide α}

/-- Each makes its next call. --/
def step (own : ClientFile → Int → Listing α) (s : SideBySide α) (_ : Unit) : Option (SideBySide α) :=
  (s.chunkfs.step own).map fun r => ⟨r, s.client.step own⟩

/-- Both have been given the same entries, stand at the same position and have been returned the same. --/
structure Agree (s : SideBySide α) : Prop where
  got : s.chunkfs.got = s.client.got
  pos : s.chunkfs.file.pos = s.client.file.pos
  ret : s.chunkfs.ret = s.client.ret

/-- The client's next call is one that chunkfs makes alike. --/
def Alike (own : ClientFile → Int → Listing α) (s : SideBySide α) (_ : Unit) : Prop :=
  ListsAlike (own s.client.file s.client.file.pos) s.client.file.pos

/-- Two processes with the directory open, each somewhere in it. --/
structure Open (s : SideBySide α) (k : Continuation) : Prop where
  directory : Directory s.chunkfs.world s.chunkfs.file.dentry k
  nonneg : 0 ≤ s.chunkfs.file.pos
  below : s.chunkfs.file.pos < 2 ^ 63
  client : s.client.file = ⟨s.chunkfs.file.dentry.client, s.client.file.pos, s.chunkfs.file.flags⟩
  clientNonneg : 0 ≤ s.client.file.pos
  clientBelow : s.client.file.pos < 2 ^ 63

/-- What a step has done. --/
theorem step_some {u : Unit} (hs : s.step own u = some t) :
    ∃ r w, iterate own s.chunkfs.file s.chunkfs.file.pos s.chunkfs.world = .ok r w ∧
      t = ⟨⟨w, { r.file with pos := r.ctxPos }, s.chunkfs.got ++ r.entries, r.ret⟩, s.client.step own⟩ := by
  obtain ⟨r, hr, rfl⟩ := Option.map_eq_some_iff.mp hs
  unfold Reader.step at hr
  split at hr
  · rename_i r' w hcall
    cases hr
    exact ⟨r', w, hcall, rfl⟩
  · cases hr

theorem Open.step (h : s.Open k) (hown : ByteOffsets own) (u : Unit) : ∃ t, s.step own u = some t ∧ t.Open k := by
  obtain ⟨r, w, hr, hd, hdentry, hflags, hpos⟩ := h.directory.iterate_ok h.nonneg h.below own
  have hmoved : 0 ≤ r.ctxPos ∧ r.ctxPos < 2 ^ 63 := by
    rcases hpos with hpos | hpos
    · exact hpos ▸ hown _ _ h.nonneg h.below
    · exact hpos ▸ ⟨h.nonneg, h.below⟩
  have hclient := hown s.client.file s.client.file.pos h.clientNonneg h.clientBelow
  have hinode : s.client.file.inode = r.file.dentry.client := hdentry ▸ congrArg ClientFile.inode h.client
  have hflags' : s.client.file.flags = r.file.flags := hflags ▸ congrArg ClientFile.flags h.client
  refine ⟨_, by unfold SideBySide.step Reader.step; rw [hr]; rfl, ?_⟩
  exact
    { directory := by rw [hdentry]; exact hd
      nonneg := hmoved.1
      below := hmoved.2
      client := by
        dsimp only [ClientReader.step]
        rw [hinode, hflags']
      clientNonneg := hclient.1
      clientBelow := hclient.2 }

theorem Open.run (h : s.Open k) (hown : ByteOffsets own) (us : List Unit) : (Run.run (SideBySide.step own) s us).isSome := by
  induction us generalizing s with
  | nil => rfl
  | cons u us ih =>
    obtain ⟨t, ht, hopen⟩ := h.step hown u
    rw [Run.run, ht]
    exact ih hopen

/-- From where both agree, they still do after the next call exactly where that call is made alike. --/
theorem agree_iff (h : s.Open k) (ha : s.Agree) {u : Unit} (hs : s.step own u = some t) : t.Agree ↔ s.Alike own u := by
  have hat : (⟨s.chunkfs.file.dentry.client, s.chunkfs.file.pos, s.chunkfs.file.flags⟩ : ClientFile) = s.client.file := by
    rw [h.client, ha.pos]
  have hiff := listsAsClient_iff h.directory h.nonneg h.below own
  rw [ListsAsClient, hat, ha.pos] at hiff
  rw [Alike, ← hiff]
  obtain ⟨r, w, hr, rfl⟩ := step_some hs
  rw [ha.pos] at hr
  constructor
  · intro hb
    exact ⟨r, w, hr, List.append_cancel_left (ha.got ▸ hb.got), hb.pos, hb.ret⟩
  · rintro ⟨r', w', hr', hentries, hpos, hret⟩
    rw [hr] at hr'
    cases hr'
    exact ⟨by rw [ha.got, hentries]; rfl, hpos, hret⟩

/-- Every call of a directory delivers what the client's own does if and only if it begins in the first segment and does
    not end in `ENODATA`, or the client's own delivers nothing there and fails with `ENOENT`; and repeated calls deliver
    what the client's do if and only if this is so of each. --/
theorem iterate_iff (h : s.Open k) (hown : ByteOffsets own) (ha : s.Agree) :
    (ListsAsClient own s.chunkfs.file s.chunkfs.world ↔ s.Alike own ()) ∧
      ∀ us, (Run.run (SideBySide.step own) s us).isSome ∧
        (Always (SideBySide.step own) Agree (fun _ _ => True) s us ↔ Each (SideBySide.step own) (Alike own) s us) := by
  refine ⟨?_, fun us => ⟨h.run hown us, ?_⟩⟩
  · have hat : (⟨s.chunkfs.file.dentry.client, s.chunkfs.file.pos, s.chunkfs.file.flags⟩ : ClientFile) = s.client.file := by
      rw [h.client, ha.pos]
    rw [listsAsClient_iff h.directory h.nonneg h.below own, Alike, hat, ha.pos]
  · refine always_iff_each (I := fun t => t.Open k ∧ t.Agree) (fun _ ht => ht.2) (fun t u ht hq => ⟨trivial, fun t' ht' => ?_⟩)
      (fun t u t' ht ht' _ hb => (agree_iff ht.1 ht.2 ht').mp hb) ⟨h, ha⟩ (h.run hown us)
    obtain ⟨t'', hstep, hopen⟩ := ht.1.step hown u
    rw [ht'] at hstep
    cases hstep
    exact ⟨hopen, (agree_iff ht.1 ht.2 ht').mpr hq⟩

end SideBySide

/-! ### A directory of a prepared pool -/

/-- A directory of `blocks` blocks, in a prepared pool of one chunk. --/
def oneDir (blocks : Nat) : World :=
  let i := (NewObject.inode ⟨0o040755, 0, 2, [], 4096 * blocks, false⟩ quietEnv).setFirst 4 initCd
  { oneFile [1] quietEnv with
    disk := (preparedDisk [1] quietEnv).insert firstIno i
    vnode := fun v => if v = 1 then some ⟨firstIno.uino, i.attrs, 4096 * blocks, some firstIno⟩ else none }

theorem oneDir_directory (blocks : Nat) : Directory (oneDir blocks) firstDentry (headOf firstDentry) where
  chain := (chain_of_head (w := oneDir blocks) (v := 1) ⟨by decide, by decide, by decide⟩ (List.mem_singleton.mpr rfl)
    (if_pos rfl) (by simp [oneDir, Disk.insert]; rfl) (ClientInode.contData?_setFirst_four initCd_fits _) rfl rfl rfl).toChain
  initial := rfl
  calm := rfl
  fuel := show 1 < quietEnv.fuel by decide

/-- The directory opened for reading, with its position at `pos`. --/
def oneDirFile (pos : Int) : File := ⟨firstDentry, pos, 0⟩

theorem dir_llseek_oneDir : SeeksAsClient (genericFileLlseek 4096 (2 ^ 31 - 1)) (oneDirFile 12) 24 .set (oneDir 1) :=
  (dir_llseek_iff (oneDir_directory 1) (by decide) 4096 (2 ^ 31 - 1) 24 (by decide) (by decide) (by decide) (by decide) .set).mpr
    ⟨by decide, by decide, Or.inl (by decide)⟩

/-- From position 12, a seek by 24 ends at 48 instead of 36. --/
theorem not_dir_llseek_oneDir : Directory (oneDir 1) (oneDirFile 12).dentry (headOf firstDentry) ∧
    ¬SeeksAsClient (genericFileLlseek 4096 (2 ^ 31 - 1)) (oneDirFile 12) 24 .cur (oneDir 1) := by
  refine ⟨oneDir_directory 1, ?_⟩
  rintro ⟨ret, file', w', hr, hret, -⟩
  have hfile : (oneDirFile 12).dentry = firstDentry := rfl
  obtain ⟨w'', hr'⟩ := (oneDir_directory 1).dirLlseek_inside hfile (show (0 : Int) ≤ 24 by decide) (by decide)
    (genericFileLlseek 4096 (2 ^ 31 - 1)) .cur rfl
  rw [hr] at hr'
  cases hr'
  revert hret
  decide

/-- A client directory of `blocks` blocks, each with one entry, that hands out an entry a call. --/
def blockEntries (blocks : Nat) (file : ClientFile) (p : Int) : Listing Int :=
  if p < 4096 * blocks then ⟨[p / 4096], p + 4096, file.pos, 0⟩ else ⟨[], p, file.pos, 0⟩

theorem blockEntries_byteOffsets {blocks : Nat} (h : blocks < 2 ^ 31) : ByteOffsets (blockEntries blocks) := by
  intro file p h₀ hlt
  unfold blockEntries
  split
  · dsimp only
    omega
  · exact ⟨h₀, hlt⟩

/-- Two processes at a position of it. --/
def listing (blocks : Nat) (pos : Int) : SideBySide Int :=
  ⟨⟨oneDir blocks, oneDirFile pos, [], 0⟩, ⟨⟨firstIno, pos, 0⟩, [], 0⟩⟩

theorem listing_open (blocks : Nat) {pos : Int} (h₀ : 0 ≤ pos) (hlt : pos < 2 ^ 63) :
    (listing blocks pos).Open (headOf firstDentry) :=
  ⟨oneDir_directory blocks, h₀, hlt, rfl, h₀, hlt⟩

theorem iterate_listing : Always (SideBySide.step (blockEntries 1)) SideBySide.Agree (fun _ _ => True) (listing 1 0) [(), ()] := by
  refine ((SideBySide.iterate_iff (listing_open 1 (by decide) (by decide)) (blockEntries_byteOffsets (by decide))
    ⟨rfl, rfl, rfl⟩).2 [(), ()]).2.mpr ⟨?_, fun t ht => ⟨?_, fun _ _ => trivial⟩⟩
  · exact (show (0 : Int) ≠ Errno.enodata.ret by decide)
  · obtain ⟨r, w, -, rfl⟩ := SideBySide.step_some ht
    exact (show (0 : Int) ≠ Errno.enodata.ret by decide)

/-- In a directory of eleven blocks the entry of the last is not delivered. --/
theorem not_iterate_listing : Directory (oneDir 11) (oneDirFile 40960).dentry (headOf firstDentry) ∧
    ByteOffsets (blockEntries 11) ∧ (blockEntries 11 ⟨firstIno, 36864, 0⟩ 36864).ctxPos = 40960 ∧
      ¬ListsAsClient (blockEntries 11) (oneDirFile 40960) (oneDir 11) := by
  refine ⟨oneDir_directory 11, blockEntries_byteOffsets (by decide), by decide, fun h => ?_⟩
  obtain ⟨hnone, -⟩ : ListsAlike (blockEntries 11 ⟨firstIno, 40960, 0⟩ 40960) 40960 :=
    (listsAsClient_iff (oneDir_directory 11) (by decide) (by decide) (blockEntries 11)).mp h
  revert hnone
  decide

end Chunkfs
