import Chunkfs.Theorems.Position

/-! Calls that carry their own position, `pread` and `pwrite`, beside those that use the file's. What a call opens it
    closes, and closing stores a position in the file, whoever's position the call was for. -/

namespace Chunkfs
open Exec Word Run

/-- A call that uses the file's position, or one that is given a position. --/
inductive Use where
  | sequential (x : Io)
  | positional (x : Io) (p : Int)

/-- A process with its open file, and the position at which its sequential calls have left it. --/
structure Shared where
  world : World
  file : File
  left : Int

/-- A system call that returns, with a count or an error. The VFS stores the position that comes back from a call for
    the file's own position. --/
def Shared.step (s : Shared) : Use → Option Shared
  | .sequential x =>
    if x.Verified s.file.pos then
      match x.call s.file s.file.pos s.world with
      | .ok r w => some { world := w, file := { r.file with pos := r.ppos }, left := r.ppos }
      | .error _ _ => none
    else none
  | .positional x p =>
    if x.Verified p then
      match x.call s.file p s.world with
      | .ok r w => some { world := w, file := r.file, left := s.left }
      | .error _ _ => none
    else none

namespace Shared

/-- A segment covers the position, or a write makes one for it. --/
def Opens (s : Shared) (x : Io) (p : Int) : Prop :=
  ∃ vn, s.world.vnode s.file.dentry.inode = some vn ∧
    ((∃ k, Locates s.world s.file.dentry vn.ino p none k) ∨
      (∃ data, x = .write data) ∧ CanGrow s.world s.file.dentry vn.ino)

/-- A call that is given a position is given the file's own, or opens nothing. --/
def Apart (s : Shared) : Use → Prop
  | .sequential _ => True
  | .positional x p => p = s.file.pos ∨ ¬s.Opens x p

end Shared

/-! ### What is left in the file -/

section Calls
variable {w w' : World} {d : Dentry} {vn : Vnode} {p : Int} {file : File} {r : IoResult}

theorem openContFile_vnode {o : Except Errno Opened} (hfile : file.dentry = d) (h : openContFile file p w = .ok o w') :
    ∃ vn, w.vnode d.inode = some vn := by
  unfold openContFile getContAtOffset at h
  simp only [hfile, bind_eq_ok] at h
  obtain ⟨r, w₁, ⟨s, w₀, hget, hsearch⟩, -⟩ := h
  cases hget
  cases hfuel : w.env.fuel with
  | zero =>
    rw [hfuel] at hsearch
    cases hsearch
  | succ fuel =>
    rw [hfuel] at hsearch
    unfold contAtOffsetLoop getNextCont vnodeAt at hsearch
    simp only [bind_eq_ok] at hsearch
    obtain ⟨r', w₂, ⟨vn, w₃, ⟨s, w₄, hget, hvn⟩, -⟩, -⟩ := hsearch
    cases hget
    cases hv : w.vnode d.inode with
    | none =>
      rw [hv] at hvn
      cases hvn
    | some vn => exact ⟨vn, rfl⟩

/-- What a read leaves in the file, whatever the client file systems answer. --/
theorem read_file (hfile : file.dentry = d) (h₀ : 0 ≤ p) (hlt : p < 2 ^ 63) {len : Nat}
    (h : read file len p w = .ok r w') :
    r.file = file ∨ r.file = { file with pos := p } ∧ ∃ vn k, w.vnode d.inode = some vn ∧ Locates w d vn.ino p none k := by
  unfold read at h
  simp only [bind_eq_ok] at h
  obtain ⟨o, w₁, hopen, h⟩ := h
  obtain ⟨vn, hv⟩ := openContFile_vnode hfile hopen
  obtain ⟨-, hused⟩ := openContFile_ok hv hfile hopen
  cases o with
  | error e =>
    cases h
    exact Or.inl rfl
  | ok o =>
    obtain ⟨k, hk, rfl, -⟩ := hused o rfl
    simp only [bind_eq_ok] at h
    obtain ⟨t, w₂, -, f, w₃, hclose, h⟩ := h
    cases h
    obtain ⟨rfl, -⟩ := closeContFile_ok hclose
    exact Or.inr ⟨copyUpFile_openedAt k file.flags h₀ hlt, vn, k, hv, hk⟩

theorem writeOpened_file {k : Continuation} {flags : Nat} (h₀ : 0 ≤ p) (hlt : p < 2 ^ 63) {data : List UInt8}
    (h : writeOpened file data (openedAt k flags p) w = .ok r w') : r.file = { file with pos := p } := by
  unfold writeOpened at h
  simp only [bind_eq_ok] at h
  obtain ⟨t, w₁, -, f, w₂, hclose, h⟩ := h
  cases h
  obtain ⟨rfl, -⟩ := closeContFile_ok hclose
  exact copyUpFile_openedAt k flags h₀ hlt

theorem write_file (hfile : file.dentry = d) (h₀ : 0 ≤ p) (hlt : p < 2 ^ 63) {data : List UInt8}
    (h : write file data p w = .ok r w') :
    r.file = file ∨ r.file = { file with pos := p } ∧ ∃ vn, w.vnode d.inode = some vn ∧
      ((∃ k, Locates w d vn.ino p none k) ∨ CanGrow w d vn.ino) := by
  unfold write at h
  simp only [bind_eq_ok] at h
  obtain ⟨o, w₁, hopen, h⟩ := h
  obtain ⟨vn, hv⟩ := openContFile_vnode hfile hopen
  obtain ⟨hw, hused⟩ := openContFile_ok hv hfile hopen
  cases o with
  | ok o =>
    obtain ⟨k, hk, rfl, -⟩ := hused o rfl
    exact Or.inr ⟨writeOpened_file h₀ hlt h, vn, hv, Or.inl ⟨k, hk⟩⟩
  | error e =>
    dsimp only at h
    split at h
    · simp only [bind_eq_ok] at h
      obtain ⟨o, w₂, hcreate, h⟩ := h
      cases o with
      | error e =>
        cases h
        exact Or.inl rfl
      | ok o =>
        obtain ⟨t, c, u, w₃, -, -, -, -, -, cd, ht, -, hw₃, ho, -, -, -, -, -, rfl⟩ :=
          createContinuation_ok (hw.vnode ▸ hv) hfile hcreate
        obtain ⟨u', ho', -⟩ := (hw.trans hw₃).of_openPath ho
        exact Or.inr ⟨writeOpened_file h₀ hlt h, vn, hv, Or.inr ⟨t, c, u', ht.of_later hw.sameDisk hw.caches, ho'⟩⟩
    · cases h
      exact Or.inl rfl

end Calls

namespace Shared
variable {s t : Shared} {e : Use}

/-- What a step has done. --/
theorem sequential_ok {x : Io} (hs : s.step (.sequential x) = some t) :
    ∃ r, x.call s.file s.file.pos s.world = .ok r t.world ∧ t.file = { r.file with pos := r.ppos } ∧ t.left = r.ppos := by
  unfold step at hs
  dsimp only at hs
  split at hs
  · split at hs
    · rename_i r w hr
      cases hs
      exact ⟨r, hr, rfl, rfl⟩
    · cases hs
  · cases hs

theorem positional_ok {x : Io} {p : Int} (hs : s.step (.positional x p) = some t) :
    ∃ r, x.Verified p ∧ x.call s.file p s.world = .ok r t.world ∧ t.file = r.file ∧ t.left = s.left := by
  unfold step at hs
  dsimp only at hs
  split at hs
  · rename_i hver
    split at hs
    · rename_i r w hr
      cases hs
      exact ⟨r, hver, hr, rfl, rfl⟩
    · cases hs
  · cases hs

/-- A call leaves the file as it is, or at the call's position when it opens something. --/
theorem call_file {x : Io} {p : Int} (h₀ : 0 ≤ p) (hlt : p < 2 ^ 63) {r : IoResult} {w : World}
    (hr : x.call s.file p s.world = .ok r w) : r.file = s.file ∨ r.file = { s.file with pos := p } ∧ s.Opens x p := by
  cases x with
  | read len =>
    rcases read_file rfl h₀ hlt hr with hf | ⟨hf, vn, k, hv, hk⟩
    · exact Or.inl hf
    · exact Or.inr ⟨hf, vn, hv, Or.inl ⟨k, hk⟩⟩
  | write data =>
    rcases write_file rfl h₀ hlt hr with hf | ⟨hf, vn, hv, hk | hg⟩
    · exact Or.inl hf
    · exact Or.inr ⟨hf, vn, hv, Or.inl hk⟩
    · exact Or.inr ⟨hf, vn, hv, Or.inr ⟨⟨data, rfl⟩, hg⟩⟩

/-- A call apart does not move the file. --/
theorem step_left (hp : s.file.pos = s.left) (hq : s.Apart e) (hs : s.step e = some t) : t.file.pos = t.left := by
  cases e with
  | sequential x =>
    obtain ⟨r, -, hf, hl⟩ := sequential_ok hs
    rw [hf, hl]
  | positional x p =>
    obtain ⟨r, ⟨h₀, hend, -⟩, hr, hf, hl⟩ := positional_ok hs
    rw [hf, hl]
    rcases call_file h₀ (by omega) hr with hsame | ⟨hmoved, ho⟩
    · rw [hsame]
      exact hp
    · rw [hmoved]
      exact (hq.resolve_right (not_not_intro ho)).trans hp

/-- What a call that has returned for the position `p` leaves in the file, where the clients do not fail. --/
theorem file_of_opens (h : InUse s.world s.file.dentry) {x : Io} {p : Int} (h₀ : 0 ≤ p) (hlt : p < 2 ^ 63)
    (ho : s.Opens x p) {r : IoResult} {w : World} (hr : x.call s.file p s.world = .ok r w) : r.file = { s.file with pos := p } := by
  obtain ⟨vn, hv, hopens⟩ := ho
  cases x with
  | read len =>
    rcases read_ok h.honest hv h.live rfl hr with ⟨hnone, -⟩ | ⟨k, i, -, -, -, hf, -⟩
    · rcases hopens with ⟨k, hk⟩ | ⟨⟨data, hd⟩, -⟩
      · exact absurd hk (hnone k)
      · cases hd
    · exact hf.trans (copyUpFile_openedAt k s.file.flags h₀ hlt)
  | write data =>
    cases write_ok h.honest hv h.live rfl hr with
    | fails _ _ hnone hstuck _ =>
      rcases hopens with ⟨k, hk⟩ | ⟨-, hg⟩
      · exact absurd hk (hnone k)
      · exact absurd hg hstuck
    | found k i _ _ hf => exact hf.trans (copyUpFile_openedAt k s.file.flags h₀ hlt)
    | grown t c u k w₁ i _ _ _ _ _ hf => exact hf.trans (copyUpFile_openedAt k oCreatRdwr h₀ hlt)

theorem step_inUse (h : InUse s.world s.file.dentry) (hs : s.step e = some t) : InUse t.world t.file.dentry := by
  cases e with
  | sequential x =>
    obtain ⟨r, hr, hf, -⟩ := sequential_ok hs
    obtain ⟨hd, hu⟩ := x.call_inUse h hr
    rw [hf]
    exact hd ▸ hu
  | positional x p =>
    obtain ⟨r, -, hr, hf, -⟩ := positional_ok hs
    obtain ⟨hd, hu⟩ := x.call_inUse h hr
    rw [hf]
    exact hd ▸ hu

/-- A call that leaves the file's position is a call apart. --/
theorem apart_of_left (h : InUse s.world s.file.dentry) (hs : s.step e = some t) (hp : s.file.pos = s.left)
    (hp' : t.file.pos = t.left) : s.Apart e := by
  cases e with
  | sequential x => exact trivial
  | positional x p =>
    obtain ⟨r, ⟨h₀, hend, -⟩, hr, hf, hl⟩ := positional_ok hs
    refine or_iff_not_imp_right.mpr fun ho => ?_
    have hmoved := file_of_opens h h₀ (by omega) (not_not.mp ho) hr
    rw [hf, hl, hmoved] at hp'
    exact hp'.trans hp.symm

/-- In every run of calls apart the file's position is always the one that the sequential calls have left; and where the
    clients do not fail, it is so in no other run. --/
theorem positions_apart (hp : s.file.pos = s.left) :
    (∀ us, Each step Apart s us → Always step (fun t => t.file.pos = t.left) (fun _ _ => True) s us) ∧
      (InUse s.world s.file.dentry → ∀ us, (run step s us).isSome →
        (Always step (fun t => t.file.pos = t.left) (fun _ _ => True) s us ↔ Each step Apart s us)) := by
  constructor
  · intro us hq
    exact always_of_each (I := fun t => t.file.pos = t.left) (fun _ h => h)
      (fun t e ht hq => ⟨trivial, fun t' ht' => step_left ht hq ht'⟩) hp hq
  · intro h us hrun
    refine always_iff_each (I := fun t => InUse t.world t.file.dentry ∧ t.file.pos = t.left) (fun t ht => ht.2)
      (fun t e ht hq => ⟨trivial, fun t' ht' => ⟨step_inUse ht.1 ht', step_left ht.2 hq ht'⟩⟩) ?_ ⟨h, hp⟩ hrun
    exact fun t e t' ht ht' _ hp' => apart_of_left ht.1 ht' ht.2 hp'

end Shared

/-! ### A file of two segments -/

/-- The file opened for reading and writing. --/
def twoShared : Shared := ⟨twoSized 40960 100, twoFile, 0⟩

theorem positions_apart_twoShared :
    Always Shared.step (fun t => t.file.pos = t.left) (fun _ _ => True) twoShared [.positional (.read 3) 0, .sequential (.read 3)] :=
  (Shared.positions_apart rfl).1 _ ⟨Or.inl rfl, fun _ _ => ⟨trivial, fun _ _ => trivial⟩⟩

/-- A `pread` at offset 5 takes the file from position 0 to 5. --/
theorem not_apart_twoShared : InUse twoShared.world twoShared.file.dentry ∧ twoShared.file.pos = twoShared.left ∧
    (Run.run Shared.step twoShared [.positional (.read 1) 5]).isSome ∧
      ¬Always Shared.step (fun t => t.file.pos = t.left) (fun _ _ => True) twoShared [.positional (.read 1) 5] := by
  have hrun : (Run.run Shared.step twoShared [.positional (.read 1) 5]).isSome := by decide +kernel
  refine ⟨twoSession_inUse 0, rfl, hrun, fun h => ?_⟩
  obtain ⟨t, ht, -⟩ := run_cons hrun
  have hpos : t.file.pos = t.left := h.2.2 t ht
  have hvalue : (twoShared.step (.positional (.read 1) 5)).map (fun t => (t.file.pos, t.left)) = some (5, 0) := by
    decide +kernel
  rw [ht] at hvalue
  obtain ⟨h₁, h₂⟩ := Prod.mk.inj (Option.some.inj hvalue)
  omega

end Chunkfs
