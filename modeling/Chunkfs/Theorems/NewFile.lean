import Chunkfs.Theorems.Contents
import Chunkfs.Namei

/-! New files. What a file just made is like, that it holds nothing, and that a file made in a pool as `test.sh`
    prepares it is such a file. -/

namespace Chunkfs
open Exec Flat

/-- A file just made by `chunkfs_create`, in a pool where no continuation file is named after it or after a free
    inode. --/
structure NewFile (w : World) (d : Dentry) : Prop where
  sound : Sound w
  range : d.client.InRange
  pool : d.client.chunk ∈ w.pool
  live : w.icache d.client = .live
  vnode : ∃ vn, w.vnode d.inode = some vn ∧ vn.client = some d.client ∧ vn.ino = d.client.uino ∧ vn.size = 0
  inode : ∃ i, w.disk.inode d.client = some i ∧ i.contData? = some initCd ∧ i.size = 0
  unnamed : ∀ x, x = d.client ∨ w.disk.inode x = none → Unnamed w x
  supply : ∀ k, d.client.chunk < k → k ∈ w.pool →
    w.disk.dir (contDir k (k - 1)) = some k ∧ w.disk.inode ⟨k, w.env.ialloc k⟩ = none

/-- Every call works, and the clients store all they are given. --/
structure Undisturbed (w : World) : Prop where
  calm : Calm w
  whole : w.env.limit = none
  fuel : 16 < w.env.fuel

/-- The only segment of a new file. --/
def headOf (d : Dentry) : Continuation := loaded d.client initCd d.client.chunk

section New
variable {w : World} {d : Dentry}

/-- An inode with initial data is a chain of one element. --/
theorem chain_of_head {c : ClientIno} {v : Nat} {vn : Vnode} {i : ClientInode} (hr : c.InRange) (hp : c.chunk ∈ w.pool)
    (hl : w.icache c = .live) (hi : w.disk.inode c = some i) (hcd : i.contData? = some initCd)
    (hv : w.vnode v = some vn) (hc : vn.client = some c) (hn : vn.ino = c.uino) :
    FileChain w ⟨v, c⟩ [headOf ⟨v, c⟩] := by
  have hdata : w.disk.contData? c = some initCd := by
    simp only [Disk.contData?, hi, hcd]
  refine ⟨⟨⟨⟨hl, vn, hv, hc, ?_⟩, ⟨_, _, rfl, rfl⟩, fun x hx => ?_, .singleton _, fun x hx => ?_, fun _ _ x hx => ?_,
    by simp⟩, fun x hx => ?_⟩, fun vn' hv' => ?_, fun x hx => ?_, .singleton _, fun x hx => ?_⟩
  · rw [hn, hr.chunkId_uino]
  · rw [List.mem_singleton] at hx
    subst hx
    exact ⟨hr, hp, rfl, rfl, hdata⟩
  · cases hx
    rfl
  · cases hx
  · rw [List.mem_singleton] at hx
    subst hx
    exact hl
  · rw [hv] at hv'
    cases hv'
    exact hn
  · cases hx
    exact ⟨rfl, rfl⟩
  · rw [List.mem_singleton] at hx
    subst hx
    rfl

theorem NewFile.fileChain (h : NewFile w d) : FileChain w d [headOf d] := by
  obtain ⟨vn, hv, hc, hn, -⟩ := h.vnode
  obtain ⟨i, hi, hcd, -⟩ := h.inode
  exact chain_of_head h.range h.pool h.live hi hcd hv hc hn

/-- A new file holds nothing. --/
theorem NewFile.holds (h : NewFile w d) (hu : Undisturbed w) : Holds w d [headOf d] Bytes.empty := by
  obtain ⟨vn, hv, -, -, hsize⟩ := h.vnode
  obtain ⟨i, hi, -, hempty⟩ := h.inode
  refine ⟨⟨h.fileChain, h.sound, hu.calm, hu.fuel, fun t ht => ?_, fun x hx => h.unnamed x (Or.inr hx), fun k hk hp =>
    h.supply k hk hp⟩, fun j c hc => ?_, by simp [Bytes.empty], fun vn' hv' => ?_, hu.whole⟩
  · cases ht
    exact h.unnamed _ (Or.inl rfl)
  · obtain ⟨rfl, rfl⟩ : j = 0 ∧ c = headOf d := by
      cases j with
      | zero => exact ⟨rfl, by simpa using hc.symm⟩
      | succ j => simp at hc
    exact ⟨i, hi, Piece.of_size_zero hempty (by simp [Bytes.empty])⟩
  · rw [hv] at hv'
    cases hv'
    rw [hsize]
    rfl

end New

/-! ### A prepared pool -/

theorem contPath_ne_rootPath (k f i : Nat) : contPath k f i ≠ rootPath := fun h => by
  have hroot : rootPath = "/chunk".toList ++ (Decimal.print 1 ++ '/' :: "root/".toList) := by decide
  rw [hroot] at h
  unfold contPath at h
  obtain ⟨-, h⟩ := Decimal.print_append_inj (by decide) (List.append_cancel_left h)
  -- The next text begins with a digit, the root's name does not.
  cases hp : Decimal.print f with
  | nil => exact Decimal.print_ne_nil f hp
  | cons a l =>
    have ha : a.isDigit = true := Decimal.isDigit_of_mem_print (n := f) (by simp [hp])
    rw [hp] at h
    have : a = 'r' := (List.cons.inj h).1
    subst this
    simp at ha

section Prepared
variable {pool : List Nat} {e : Env}

theorem preparedDisk_dir {k f n : Nat} (h : (preparedDisk pool e).dir (contDir k f) = some n) : n = k ∧ k ∈ pool := by
  have hp := List.find?_some h
  have hm := List.mem_of_find?_eq_some h
  simp only [List.any_eq_true, List.mem_range, decide_eq_true_eq] at hp
  obtain ⟨f', -, he⟩ := hp
  obtain ⟨rfl, -⟩ := contDir_inj he
  exact ⟨rfl, hm⟩

theorem preparedDisk_dir_of_mem {k f : Nat} (hk : k ∈ pool) (hf : f < 10) :
    (preparedDisk pool e).dir (contDir k f) = some k := by
  cases h : (preparedDisk pool e).dir (contDir k f) with
  | none =>
    have := List.find?_eq_none.mp h k hk
    simp only [List.any_eq_true, List.mem_range, decide_eq_true_eq, not_exists, not_and] at this
    exact absurd rfl (this f hf)
  | some n => rw [(preparedDisk_dir h).1]

theorem preparedDisk_path (pool : List Nat) (e : Env) (k f i : Nat) : (preparedDisk pool e).path (contPath k f i) = none :=
  if_neg (contPath_ne_rootPath k f i)

end Prepared

/-- The client inode of the file below. --/
def firstIno : ClientIno := ⟨1, 20⟩

/-- Its dentry. --/
def firstDentry : Dentry := ⟨1, firstIno⟩

/-- A prepared pool with one new file in its root directory. --/
def oneFile (pool : List Nat) (e : Env) : World :=
  let i := (NewObject.inode ⟨0o100644, 0, 1, [], 0, true⟩ e).setFirst 4 initCd
  { prepared pool e with
    disk := (preparedDisk pool e).insert firstIno i
    icache := fun c => if c = firstIno then .live else .absent
    vnode := fun v => if v = 1 then some ⟨firstIno.uino, i.attrs, 0, some firstIno⟩ else none
    vnext := 2 }

theorem initCd_fits : initCd.Fits := fun a => by cases a <;> decide

/-- The file of a prepared pool of at most ten chunks is a new file. --/
theorem oneFile_newFile {pool : List Nat} {e : Env} (hpool : ∀ k ∈ pool, 1 ≤ k ∧ k ≤ 10) (hroot : 1 ∈ pool)
    (halloc : ∀ k, 20 < e.ialloc k ∧ e.ialloc k < 2 ^ 28) : NewFile (oneFile pool e) firstDentry where
  sound :=
    { pool := fun k hk => ⟨(hpool k hk).1, by have := (hpool k hk).2; omega⟩
      ialloc := fun k => (halloc k).2
      dir := fun k f n hn => preparedDisk_dir (e := e) hn
      file := fun k f i c hc => by
        rw [show (oneFile pool e).disk.path = (preparedDisk pool e).path from rfl, preparedDisk_path] at hc
        cases hc }
  range := ⟨by decide, by decide, by decide⟩
  pool := hroot
  live := by simp [oneFile, firstDentry]
  vnode := ⟨_, rfl, rfl, rfl, rfl⟩
  inode := ⟨_, by simp [oneFile, firstDentry, Disk.insert]; rfl, ClientInode.contData?_setFirst_four initCd_fits _, rfl⟩
  unnamed x _ := preparedDisk_path pool e (x.chunk + 1) x.chunk x.ino
  supply k hk hp := by
    have h := hpool k hp
    refine ⟨preparedDisk_dir_of_mem (e := e) hp (by omega), ?_⟩
    have hal := halloc k
    have h₁ : (⟨k, e.ialloc k⟩ : ClientIno) ≠ firstIno := fun he => by
      have : e.ialloc k = 20 := congrArg ClientIno.ino he
      omega
    have h₂ : (⟨k, e.ialloc k⟩ : ClientIno) ≠ ⟨1, 12⟩ := fun he => by
      have : e.ialloc k = 12 := congrArg ClientIno.ino he
      omega
    show ((preparedDisk pool e).insert firstIno _).inode ⟨k, e.ialloc k⟩ = none
    simp [Disk.insert, h₁, preparedDisk, h₂]

/-- An environment in which every call works. --/
def quietEnv : Env where
  script := []
  ialloc := fun _ => 30
  limit := none
  now := 1
  fsuid := 1000
  fsgid := 1000
  inGroup := (· == 1000)
  fsetid := false
  umask := 0o022
  junkNull := false
  ndDepth := 0
  slotWild := false
  fuel := 20

theorem oneFile_quiet {pool : List Nat} (hpool : ∀ k ∈ pool, 1 ≤ k ∧ k ≤ 10) (hroot : 1 ∈ pool) :
    NewFile (oneFile pool quietEnv) firstDentry :=
  oneFile_newFile hpool hroot fun _ => by show 20 < 30 ∧ 30 < 2 ^ 28; decide

theorem oneFile_undisturbed (pool : List Nat) : Undisturbed (oneFile pool quietEnv) := ⟨rfl, rfl, by show 16 < 20; decide⟩

/-- A file opened for reading and writing. --/
def firstFile : File := ⟨firstDentry, 0, 2⟩

end Chunkfs
