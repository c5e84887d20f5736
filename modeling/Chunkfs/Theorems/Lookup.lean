import Chunkfs.Lib.Run
import Chunkfs.Theorems.Agree
import Chunkfs.Theorems.Crash
import Chunkfs.Theorems.Failures
import Chunkfs.Theorems.Making
import Chunkfs.Theorems.Memory

/-! Looking names up and mounting. `chunkfs_lookup` and `chunkfs_read_root` store initial continuation data in every
    client inode they find, so a file that has grown is cut off behind its first client inode. -/

namespace Chunkfs
open Exec Run

/-! ### Calls that store something -/

/-- How many of the next `n` calls work before the first that does not. --/
def worksFor (n : Nat) (s : List Outcome) : Nat :=
  match firstStop n s with
  | none => n
  | some (k, _) => k

theorem worksFor_nil (n : Nat) : worksFor n [] = n := by
  cases n <;> rfl

theorem worksFor_works (n : Nat) (s : List Outcome) : worksFor (n + 1) (.works :: s) = worksFor n s + 1 := by
  simp only [worksFor, firstStop]
  cases firstStop n s <;> rfl

/-- The program asks `n` times; when `k` calls have worked before the first that does not, `stage k` is on disk in the
    end. --/
def Stages {α : Type} (n : Nat) (m : Kern α) (w : World) (stage : Nat → Disk) : Prop :=
  SameDisk (w.setDisk (stage (worksFor n w.env.script))) (final (m w))

namespace Stages
variable {α β : Type} {n : Nat} {w w' : World} {stage : Nat → Disk} {m : Kern α} {a : α}

theorem rest (h : Stays SameDisk m) (hs : stage 0 = w.disk) : Stages 0 m w stage :=
  SameDisk.trans ⟨hs.symm, rfl⟩ (h w)

theorem get_bind {f : World → Kern α} (h : Stages n (f w) w stage) : Stages n (get >>= f) w stage := h

theorem congr {stage' : Nat → Disk} (h : Stages n m w stage) (hs : ∀ k, stage' k = stage k) : Stages n m w stage' := by
  obtain rfl : stage' = stage := funext hs
  exact h

theorem sameDisk (h : Stages n m w fun _ => w.disk) : SameDisk w (final (m w)) := ⟨h.disk, h.pool⟩

/-- A first part that asks nothing. --/
theorem after {f : α → Kern β} {u : World} (hm : m w = .ok a u) (hw : u.pool = w.pool)
    (he : u.env.script = w.env.script) (h : Stages n (f a) u stage) : Stages n (m >>= f) w stage := by
  unfold Stages at h ⊢
  rw [bind_ok hm, ← he]
  exact ⟨h.disk, h.pool.trans hw⟩

/-- The first call of a program that goes off the disk if it fails. --/
theorem ask {f : Option Errno → Kern α} (hfail : ∀ e, Stays SameDisk (f (some e))) (hs : stage 0 = w.disk)
    (hf : ∀ s, Stages n (f none) (w.scripted s) fun k => stage (k + 1)) : Stages (n + 1) (ask >>= f) w stage := by
  unfold Stages at hf ⊢
  cases hscript : w.env.script with
  | nil =>
    have hask : Chunkfs.ask w = .ok none w := by simp only [Chunkfs.ask, hscript]
    have hwork := hf w.env.script
    rw [show (w.scripted w.env.script).env.script = [] from hscript, worksFor_nil] at hwork
    rw [bind_ok hask, worksFor_nil]
    exact hwork
  | cons o s =>
    cases o with
    | works =>
      have hask : Chunkfs.ask w = .ok none (w.scripted s) := by simp only [Chunkfs.ask, hscript, World.scripted]
      rw [bind_ok hask, worksFor_works]
      exact ⟨(hf s).disk, (hf s).pool⟩
    | fails e =>
      have hask : Chunkfs.ask w = .ok (some e) (w.scripted s) := by simp only [Chunkfs.ask, hscript, World.scripted]
      rw [bind_ok hask]
      have hsame : SameDisk (w.setDisk (stage 0)) (w.scripted s) := ⟨hs.symm, rfl⟩
      exact hsame.trans (hfail e _)
    | halts =>
      have hask : Chunkfs.ask w = .error .halt w := by simp only [Chunkfs.ask, hscript]
      rw [bind_error hask]
      exact ⟨hs.symm, rfl⟩

end Stages

section Store
variable {w : World} {c : ClientIno} {i : ClientInode} {α : Type} {n j : Nat} {a : ContAttr} {stage : Nat → Disk}

/-- Storing the next attribute. --/
theorem Stages.store {cd : ContData} {f : Except Errno Nat → Kern α} (ha : ContAttr.order[j]? = some a)
    (hi : (w.stored c cd j).inode? c = some i) (hfail : ∀ e, Stays SameDisk (f (.error e)))
    (hs : stage 0 = (w.stored c cd j).disk)
    (hf : ∀ s, Stages n (f (.ok (cd.value a))) ((w.scripted s).stored c cd (j + 1)) fun k => stage (k + 1)) :
    Stages (n + 1) (getSetContData c a (cd.value a) 1 >>= f) (w.stored c cd j) stage := by
  unfold getSetContData genericSetxattr
  rw [if_neg Nat.one_ne_zero]
  simp only [bind_assoc]
  refine .ask (fun e => hfail e) hs fun s => ?_
  dsimp only
  rw [bind_assoc]
  refine .get_bind ?_
  have hi' : ((w.stored c cd j).scripted s).inode? c = some i := hi
  rw [hi']
  dsimp only
  rw [bind_assoc]
  refine .after rfl rfl rfl ?_
  have hnext := hf s
  rw [stored_succ _ c cd ha] at hnext
  exact hnext

/-- What follows the storing of all four goes off the disk. --/
theorem setContData_stages {f : Except Errno Unit → Kern α} (hi : w.inode? c = some i) (cd : ContData)
    (hf : ∀ r, Stays SameDisk (f r)) : Stages 4 (setContData c cd >>= f) w fun k => (w.stored c cd k).disk := by
  have hstored (s : List Outcome) (k : Nat) : ((w.scripted s).stored c cd k).inode? c = some (i.setFirst k cd) :=
    World.inode?_setDisk_modify (w := w.scripted s) _ hi
  have hfail (e : Errno) : Stays SameDisk (Pure.pure (.error e) >>= f) := (Stays.pure _).bind hf
  have hrun : Stages 4 (setContData c cd >>= f) (w.stored c cd 0) fun k => (w.stored c cd k).disk := by
    unfold setContData
    rw [bind_assoc]
    refine .store (a := .next) rfl (hstored w.env.script 0) hfail rfl fun s => ?_
    dsimp only
    rw [bind_assoc]
    refine .store (a := .prev) rfl (hstored s 1) hfail rfl fun s => ?_
    dsimp only
    rw [bind_assoc]
    refine .store (a := .start) rfl (hstored s 2) hfail rfl fun s => ?_
    dsimp only
    rw [bind_assoc]
    refine .store (a := .len) rfl (hstored s 3) hfail rfl fun s => ?_
    exact .rest ((Stays.pure _).bind hf) rfl
  rwa [stored_zero] at hrun

theorem setContData_missing {f : Except Errno Unit → Kern α} (hi : w.inode? c = none) (cd : ContData)
    (hf : ∀ r, Stays SameDisk (f r)) : Stages 1 (setContData c cd >>= f) w fun _ => w.disk := by
  have hfail (e : Errno) : Stays SameDisk (Pure.pure (.error e) >>= f) := (Stays.pure _).bind hf
  unfold setContData getSetContData genericSetxattr
  rw [if_neg Nat.one_ne_zero]
  simp only [bind_assoc]
  refine .ask hfail rfl fun s => ?_
  dsimp only
  rw [bind_assoc]
  refine .get_bind ?_
  rw [show (w.scripted s).inode? c = none from hi]
  exact .rest (hfail .eio) rfl

end Store

/-! ### Looking up and mounting -/

/-- The lookup of the name finds the client inode and reads it in. --/
structure LooksUp (w : World) (dir : Nat) (name : List Char) (c : ClientIno) : Prop where
  entry : ∃ vn cd, w.vnode dir = some vn ∧ vn.client = some cd ∧ uinoToChunkId vn.ino ∈ w.pool ∧
    w.disk.entry cd name = some c
  read : ∃ i, (w.readIn c).inode? c = some i

/-- The mount finds the root directory and reads it in. --/
structure FindsRoot (w : World) (c : ClientIno) : Prop where
  path : w.disk.path rootPath = some c
  read : ∃ i, (w.readIn c).inode? c = some i

/-- What `chunkfs_lookup` makes of the client's answer. --/
def answered (chunkId : Nat) : Except Errno (Option ClientIno) → Kern (Except Errno (Option Dentry))
  | .error e => return .error e
  | .ok none => return .ok none
  | .ok (some c) => do
    let v ← newInode
    match ← initContData c with
    | .error e => return .error e
    | .ok _ =>
      dget c
      dget c
      startInode v c chunkId
      return .ok (some { inode := v, client := c })

section Lookup
variable {w : World} {c cd : ClientIno} {vn : Vnode} {dir chunkId n : Nat} {name : List Char} {α : Type}

theorem newInode_stages {g : Nat → Disk} {f : Nat → Kern α} (hs : g 0 = w.disk)
    (hf : ∀ s, Stages n (f w.vnext) (w.scripted s).withVnode fun k => g (k + 1)) :
    Stages (n + 1) (newInode >>= f) w g := by
  unfold newInode
  rw [bind_assoc]
  refine .ask (fun e => .throw_bind _) hs fun s => ?_
  dsimp only
  rw [bind_assoc]
  refine .get_bind ?_
  rw [bind_assoc]
  exact .after rfl rfl rfl (hf s)

/-- A client inode that has been found gets initial data if it has been read in. --/
theorem answered_stages {i : ClientInode} (hi : w.inode? c = some i) :
    Stages 5 (answered chunkId (.ok (some c))) w fun k => (w.stored c initCd (k - 1)).disk := by
  refine newInode_stages (congrArg World.disk (stored_zero w c initCd)) fun s => ?_
  refine setContData_stages (w := (w.scripted s).withVnode) hi initCd fun r => ?_
  cases r with
  | error e => exact .pure _
  | ok _ =>
    exact (offDisk (dget_quiet c)).bind fun _ => (offDisk (dget_quiet c)).bind fun _ => (startInode_offDisk _ c _).bind fun _ => .pure _

theorem answered_missing (hi : w.inode? c = none) : Stages 2 (answered chunkId (.ok (some c))) w fun _ => w.disk := by
  refine newInode_stages rfl fun s => ?_
  refine setContData_missing (w := (w.scripted s).withVnode) hi initCd fun r => ?_
  cases r with
  | error e => exact .pure _
  | ok _ =>
    exact (offDisk (dget_quiet c)).bind fun _ => (offDisk (dget_quiet c)).bind fun _ => (startInode_offDisk _ c _).bind fun _ => .pure _

theorem readIn_scripted (s : List Outcome) : (w.scripted s).readIn c = (w.readIn c).scripted s := by
  by_cases h : w.icache c = .absent
  · rw [World.readIn, World.readIn, if_pos h, if_pos (show (w.scripted s).icache c = .absent from h)]
    rfl
  · rw [World.readIn, World.readIn, if_neg h, if_neg (show (w.scripted s).icache c ≠ .absent from h)]

/-- Whether an inode can be read in is a matter of the cache and the disk. --/
theorem inode?_readIn {w' : World} (hc : w'.icache = w.icache) (hd : w'.disk = w.disk) :
    (w'.readIn c).inode? c = (w.readIn c).inode? c := by
  by_cases h : w.icache c = .absent
  · rw [World.readIn, World.readIn, if_pos h, if_pos (hc ▸ h)]
    simp [World.inode?, hd]
  · rw [World.readIn, World.readIn, if_neg h, if_neg (hc ▸ h)]
    simp only [World.inode?, hc, hd]

section Client
variable {stage : Nat → Disk} {f : Except Errno (Option ClientIno) → Kern α}

theorem clientLookup_finds (he : w.disk.entry cd name = some c) (hfail : ∀ e, Stays SameDisk (f (.error e)))
    (hs : stage 0 = w.disk)
    (hf : ∀ s, Stages n (f (.ok (some c))) ((w.readIn c).scripted s) fun k => stage (k + 1)) :
    Stages (n + 1) (clientLookup cd name >>= f) w stage := by
  unfold clientLookup
  rw [bind_assoc]
  refine .ask hfail hs fun s => ?_
  dsimp only
  rw [bind_assoc]
  refine .get_bind ?_
  rw [show (w.scripted s).disk.entry cd name = some c from he]
  dsimp only
  rw [bind_assoc]
  refine .after (u := (w.readIn c).scripted s) (congrArg (EStateM.Result.ok _) (readIn_scripted s)) ?_ rfl (hf s)
  exact (readIn_warm c).sameDisk.pool

theorem clientLookup_misses (he : w.disk.entry cd name = none) (hfail : ∀ e, Stays SameDisk (f (.error e)))
    (hnone : Stays SameDisk (f (.ok none))) : Stages 1 (clientLookup cd name >>= f) w fun _ => w.disk := by
  unfold clientLookup
  rw [bind_assoc]
  refine .ask hfail rfl fun s => ?_
  dsimp only
  rw [bind_assoc]
  refine .get_bind ?_
  rw [show (w.scripted s).disk.entry cd name = none from he]
  exact .rest hnone rfl

end Client

/-- The first three calls of a lookup go off the disk. --/
theorem lookup_stages {g : Nat → Disk} (hv : w.vnode dir = some vn) (hcd : vn.client = some cd)
    (hs : ∀ k, k < 3 → g k = w.disk)
    (h : ∀ s, Stages n (match findChunk w.pool (uinoToChunkId vn.ino) with
      | none => throw .bug
      | some _ => clientLookup cd name >>= answered (uinoToChunkId vn.ino)) (w.scripted s) fun k => g (k + 3)) :
    Stages (n + 3) (lookup dir name) w g := by
  have hvnode : vnodeAt dir w = .ok vn w := by
    unfold vnodeAt
    rw [bind_ok (get_apply w), hv]
    rfl
  unfold lookup initDentry
  refine .after hvnode rfl rfl ?_
  rw [hcd]
  simp only [bind_assoc]
  refine .ask (fun e => .throw _) (hs 0 (by decide)) fun s => ?_
  dsimp only
  rw [bind_assoc]
  refine .ask (fun e => .throw _) (hs 1 (by decide)) fun s => ?_
  dsimp only
  rw [pure_bind, if_pos rfl]
  refine .ask (fun e => .pure _) (hs 2 (by decide)) fun s => ?_
  exact .get_bind (h s)

/-- A lookup stores initial data in the client inode it finds. --/
theorem lookup_stores (h : LooksUp w dir name c) :
    Stages 9 (lookup dir name) w fun k => (w.stored c initCd (k - 5)).disk := by
  obtain ⟨vn, cd, hv, hcd, hp, he⟩ := h.entry
  obtain ⟨i, hi⟩ := h.read
  have hzero : (w.stored c initCd 0).disk = w.disk := congrArg World.disk (stored_zero w c initCd)
  refine lookup_stages (n := 6) hv hcd (fun k hk => ?_) fun s => ?_
  · rw [Nat.sub_eq_zero_of_le (by omega)]
    exact hzero
  rw [findChunk_of_mem hp]
  refine clientLookup_finds (w := w.scripted s) he (fun e => .pure _) hzero fun s' => ?_
  rw [readIn_scripted]
  refine (answered_stages (w := ((w.readIn c).scripted s).scripted s') hi).congr fun k => ?_
  show w.disk.modify c (·.setFirst (k + 4 - 5) initCd) = (w.readIn c).disk.modify c (·.setFirst (k - 1) initCd)
  rw [(readIn_warm c).disk, Nat.add_sub_add_right k 4 1]

/-- A lookup that finds no client inode leaves the disk. --/
theorem lookup_leaves (h : ∀ c, ¬LooksUp w dir name c) : SameDisk w (final (lookup dir name w)) := by
  cases hv : w.vnode dir with
  | none =>
    have hvnode : vnodeAt dir w = .error .oops w := by
      unfold vnodeAt
      rw [bind_ok (get_apply w), hv]
      rfl
    unfold lookup
    rw [bind_error hvnode]
    exact .refl w
  | some vn =>
    cases hcd : vn.client with
    | none =>
      have hvnode : vnodeAt dir w = .ok vn w := by
        unfold vnodeAt
        rw [bind_ok (get_apply w), hv]
        rfl
      unfold lookup
      rw [bind_ok hvnode, hcd]
      exact .refl w
    | some cd =>
      by_cases hp : uinoToChunkId vn.ino ∈ w.pool
      · cases he : w.disk.entry cd name with
        | none =>
          refine (lookup_stages (n := 1) (g := fun _ => w.disk) hv hcd (fun _ _ => rfl) fun s => ?_).sameDisk
          rw [findChunk_of_mem hp]
          exact clientLookup_misses (w := w.scripted s) he (fun e => .pure _) (.pure _)
        | some c =>
          have hi : (w.readIn c).inode? c = none := by
            cases hi : (w.readIn c).inode? c with
            | none => rfl
            | some i => exact absurd ⟨⟨vn, cd, hv, hcd, hp, he⟩, i, hi⟩ (h c)
          refine (lookup_stages (n := 3) (g := fun _ => w.disk) hv hcd (fun _ _ => rfl) fun s => ?_).sameDisk
          rw [findChunk_of_mem hp]
          refine clientLookup_finds (w := w.scripted s) he (fun e => .pure _) rfl fun s' => ?_
          rw [readIn_scripted]
          exact (answered_missing (w := ((w.readIn c).scripted s).scripted s') hi).congr fun _ =>
            (readIn_warm c).disk.symm
      · have hfind : findChunk w.pool (uinoToChunkId vn.ino) = none := by
          cases hf : findChunk w.pool (uinoToChunkId vn.ino) with
          | none => rfl
          | some k => exact absurd (findChunk_some hf).2 hp
        refine (lookup_stages (n := 0) (g := fun _ => w.disk) hv hcd (fun _ _ => rfl) fun s => ?_).sameDisk
        rw [hfind]
        exact .rest (.throw _) rfl

section Path
variable {path : List Char} {stage : Nat → Disk} {f : Except Errno ClientIno → Kern α}

theorem kernPath_found (hp : w.disk.path path = some c) (hfail : ∀ e, Stays SameDisk (f (.error e))) (hs : stage 0 = w.disk)
    (hf : ∀ w', w'.disk = w.disk → w'.inode? c = (w.readIn c).inode? c →
      Stages n (f (.ok c)) w' fun k => stage (k + 1)) : Stages (n + 1) (kernPath path >>= f) w stage := by
  unfold kernPath
  rw [bind_assoc]
  refine .ask hfail hs fun s => ?_
  dsimp only
  rw [bind_assoc]
  refine .get_bind ?_
  rw [show (w.scripted s).disk.path path = some c from hp]
  dsimp only
  rw [bind_assoc]
  refine .after (u := (w.readIn c).scripted s) (congrArg (EStateM.Result.ok _) (readIn_scripted s)) ?_ rfl ?_
  · exact (readIn_warm c).pool
  rw [bind_assoc]
  exact .after rfl rfl rfl (hf _ (readIn_warm c).disk rfl)

theorem kernPath_lost (hp : w.disk.path path = none) (hfail : ∀ e, Stays SameDisk (f (.error e))) :
    Stages 1 (kernPath path >>= f) w fun _ => w.disk := by
  unfold kernPath
  rw [bind_assoc]
  refine .ask hfail rfl fun s => ?_
  dsimp only
  rw [bind_assoc]
  refine .get_bind ?_
  rw [show (w.scripted s).disk.path path = none from hp]
  exact .rest (hfail .enoent) rfl

end Path

/-- What a mount does once the root directory has its data. --/
def started (v : Nat) (c : ClientIno) (chunkId : Nat) : Kern (Except Errno Dentry) := do
  startInode v c chunkId
  modifyVnode v fun vn => { vn with ino := makeUino chunkId 12 }
  match ← ask with
  | some _ => return .error .enomem
  | none =>
    if ← initDentry then
      match findChunk (← get).pool chunkId with
      | none => throw .bug
      | some _ => return .ok { inode := v, client := c }
    else
      return .error .enomem

theorem started_offDisk (v : Nat) (c : ClientIno) (chunkId : Nat) : Stays SameDisk (started v c chunkId) := by
  refine (startInode_offDisk v c chunkId).bind fun _ => (modifyVnode_offDisk v _).bind fun _ => ?_
  refine (offDisk (quiet ask_still)).bind fun r => ?_
  cases r with
  | some e => exact .pure _
  | none =>
    refine (offDisk (quiet initDentry_still)).bind fun ok => .ite (.get_bind fun w => ?_) (.pure _)
    cases findChunk w.pool chunkId with
    | none => exact .throw _
    | some k => exact .pure _

theorem readRoot_eq (chunkId : Nat) : readRoot chunkId = (newInode >>= fun v => kernPath rootPath >>= fun r =>
    match r with
    | .error _ => throw .oops
    | .ok c => dget c >>= fun _ => initContData c >>= fun _ => started v c chunkId) := rfl

/-- Until it has found the root directory a mount goes off the disk. --/
theorem readRoot_stages {g : Nat → Disk} (hp : w.disk.path rootPath = some c) (hs : ∀ k, k < 2 → g k = w.disk)
    (h : ∀ x : World, x.disk = w.disk → x.inode? c = (w.readIn c).inode? c →
      Stages n (initContData c >>= fun _ => started w.vnext c chunkId) x fun k => g (k + 2)) :
    Stages (n + 2) (readRoot chunkId) w g := by
  rw [readRoot_eq]
  refine newInode_stages (hs 0 (by decide)) fun s => ?_
  refine kernPath_found (w := (w.scripted s).withVnode) hp (fun e => .throw _) (hs 1 (by decide)) fun w' hd hi => ?_
  have hread : w'.inode? c = (w.readIn c).inode? c := hi.trans (inode?_readIn (w := w) rfl rfl)
  exact .after rfl rfl rfl (h _ hd hread)

/-- A mount stores initial data in the root directory. --/
theorem readRoot_stores (h : FindsRoot w c) :
    Stages 6 (readRoot chunkId) w fun k => (w.stored c initCd (k - 2)).disk := by
  obtain ⟨i, hi⟩ := h.read
  refine readRoot_stages h.path (fun k hk => ?_) fun x hd hx => ?_
  · rw [Nat.sub_eq_zero_of_le (Nat.le_of_lt hk)]
    exact congrArg World.disk (stored_zero w c initCd)
  · refine (setContData_stages (hx.trans hi) initCd fun r => started_offDisk w.vnext c chunkId).congr fun k => ?_
    show w.disk.modify c _ = x.disk.modify c _
    rw [hd]
    rfl

/-- A mount that does not find the root directory leaves the disk. --/
theorem readRoot_leaves (h : ∀ c, ¬FindsRoot w c) : SameDisk w (final (readRoot chunkId w)) := by
  cases hp : w.disk.path rootPath with
  | none =>
    rw [readRoot_eq]
    refine (newInode_stages (n := 1) (g := fun _ => w.disk) rfl fun s => ?_).sameDisk
    exact kernPath_lost (w := (w.scripted s).withVnode) hp fun e => .throw _
  | some c =>
    have hi : (w.readIn c).inode? c = none := by
      cases hi : (w.readIn c).inode? c with
      | none => rfl
      | some i => exact absurd ⟨hp, i, hi⟩ (h c)
    refine (readRoot_stages (n := 1) (g := fun _ => w.disk) hp (fun _ _ => rfl) fun x hd hx => ?_).sameDisk
    exact (setContData_missing (hx.trans hi) initCd fun r => started_offDisk w.vnext c chunkId).congr fun _ => hd.symm

end Lookup

/-! ### Runs -/

/-- What happens to the dentries of files that nobody changes. --/
inductive Visit where
  | lookup (dir : Nat) (name : List Char)
  | evict (d : Dentry)
  | unmount (kept : ClientIno → Bool)
  | mount (chunkId : Nat)

/-- All chunkfs inodes leave memory, and the client inodes that are not kept there. --/
def World.unmount (w : World) (kept : ClientIno → Bool) : World :=
  { w with
    disk := { w.disk with
      inode := fun x =>
        match w.disk.inode x with
        | none => none
        | some i => if kept x = false ∧ i.attrs.nlink = 0 then none else some i }
    icache := fun x => if kept x then w.icache x else .absent
    vnode := fun _ => none }

/-- What is left, whether the call returned or was cut short. --/
def Visit.left (w : World) : Visit → World
  | .lookup dir name => final (Chunkfs.lookup dir name w)
  | .evict d => w.evict d
  | .unmount kept => w.unmount kept
  | .mount chunkId => final (readRoot chunkId w)

def visit (w : World) (v : Visit) : Option World := some (v.left w)

/-- The continuation attributes of all client inodes are the same. --/
def SameAttrs (w w' : World) : Prop := ∀ c, (w'.disk.inode c).map (·.xattr) = (w.disk.inode c).map (·.xattr)

/-- A lookup or a mount leaves the continuation attributes as they were. --/
def Visit.Leaves (w : World) : Visit → Prop
  | .lookup dir name => SameAttrs w (Visit.left w (.lookup dir name))
  | .mount chunkId => SameAttrs w (Visit.left w (.mount chunkId))
  | .evict _ => True
  | .unmount _ => True

/-- The first `k` attributes of the inode are those that `chunkfs_init_cont_data` stores. --/
def Initial (w : World) (c : ClientIno) (k : Nat) : Prop :=
  ∀ i, w.disk.inode c = some i → ∀ a ∈ ContAttr.order.take k, i.xattr a = some (attrText (initCd.value a))

/-- What a lookup or a mount finds has initial data, as far as the calls that store it work. --/
def Visit.Harmless (w : World) : Visit → Prop
  | .lookup dir name => ∀ c, LooksUp w dir name c → Initial w c (worksFor 9 w.env.script - 5)
  | .mount _ => ∀ c, FindsRoot w c → Initial w c (worksFor 6 w.env.script - 2)
  | .evict _ => True
  | .unmount _ => True

section Stored
variable {w w' : World} {c : ClientIno} {k : Nat}

/-- Storing initial data changes no attribute if and only if the data is initial. --/
theorem stored_sameAttrs {i : ClientInode} (hi : w.disk.inode c = some i)
    (hd : w'.disk = (w.stored c initCd k).disk) : SameAttrs w w' ↔ Initial w c k := by
  have hsame : (w'.disk.inode c).map (·.xattr) = some (i.setFirst k initCd).xattr := by
    rw [hd]
    show ((w.disk.modify c (·.setFirst k initCd)).inode c).map (·.xattr) = _
    rw [Disk.inode_modify_same, hi]
    rfl
  constructor
  · intro h i' hi' a ha
    rw [hi] at hi'
    cases hi'
    have hx := h c
    rw [hsame, hi] at hx
    have := congrFun (Option.some.inj hx) a
    rw [ClientInode.xattr_setFirst, if_pos ha] at this
    exact this.symm
  · intro h x
    by_cases hx : x = c
    · subst hx
      rw [hsame, hi]
      refine congrArg some (funext fun a => ?_)
      rw [ClientInode.xattr_setFirst]
      split
      · rename_i ha
        exact (h i hi a ha).symm
      · rfl
    · rw [hd]
      show ((w.disk.modify c (·.setFirst k initCd)).inode x).map (·.xattr) = _
      rw [Disk.inode_modify_of_ne hx]

theorem SameDisk.sameAttrs (h : SameDisk w w') : SameAttrs w w' := fun c => by rw [h.disk]

theorem allocated_of_readIn (h : ∃ i, (w.readIn c).inode? c = some i) : ∃ i, w.disk.inode c = some i := by
  obtain ⟨i, hi⟩ := h
  exact ⟨i, (readIn_warm (w := w) c).disk ▸ disk_of_inode? hi⟩

end Stored

section Visits
variable {w t : World} {v : Visit} {vs : List Visit}

/-- A lookup or a mount leaves the attributes as they were if and only if it finds initial data or nothing. --/
theorem leaves_iff (w : World) (v : Visit) : v.Leaves w ↔ v.Harmless w := by
  cases v with
  | lookup dir name =>
    by_cases hf : ∃ c, LooksUp w dir name c
    · obtain ⟨c, h⟩ := hf
      obtain ⟨i, hi⟩ := allocated_of_readIn h.read
      refine (stored_sameAttrs hi (lookup_stores h).disk).trans ⟨fun hc c' h' => ?_, fun hall => hall c h⟩
      obtain ⟨vn, cd, hv, hcd, -, he⟩ := h.entry
      obtain ⟨vn', cd', hv', hcd', -, he'⟩ := h'.entry
      rw [hv] at hv'
      cases hv'
      rw [hcd] at hcd'
      cases hcd'
      rw [he] at he'
      cases he'
      exact hc
    · have hnone : ∀ c, ¬LooksUp w dir name c := fun c h => hf ⟨c, h⟩
      exact ⟨fun _ c h => absurd h (hnone c), fun _ => (lookup_leaves hnone).sameAttrs⟩
  | mount chunkId =>
    by_cases hf : ∃ c, FindsRoot w c
    · obtain ⟨c, h⟩ := hf
      obtain ⟨i, hi⟩ := allocated_of_readIn h.read
      refine (stored_sameAttrs hi (readRoot_stores h).disk).trans ⟨fun hc c' h' => ?_, fun hall => hall c h⟩
      have hpath := h.path
      rw [h'.path] at hpath
      cases hpath
      exact hc
    · have hnone : ∀ c, ¬FindsRoot w c := fun c h => hf ⟨c, h⟩
      exact ⟨fun _ c h => absurd h (hnone c), fun _ => (readRoot_leaves hnone).sameAttrs⟩
  | evict d => exact Iff.rfl
  | unmount kept => exact Iff.rfl

/-- The named files of `w` are in `t` with the same attributes, and every path leads where it did. --/
structure Preserved (w t : World) : Prop where
  path : t.disk.path = w.disk.path
  pool : t.pool = w.pool
  named : ∀ c i, w.disk.inode c = some i → i.attrs.nlink ≠ 0 →
    ∃ j, t.disk.inode c = some j ∧ j.attrs.nlink ≠ 0 ∧ j.xattr = i.xattr

theorem Preserved.refl (w : World) : Preserved w w := ⟨rfl, rfl, fun _ i hi hn => ⟨i, hi, hn, rfl⟩⟩

theorem Preserved.trans {u : World} (h : Preserved w t) (h' : Preserved t u) : Preserved w u := by
  refine ⟨h'.path.trans h.path, h'.pool.trans h.pool, fun c i hi hn => ?_⟩
  obtain ⟨j, hj, hnj, hx⟩ := h.named c i hi hn
  obtain ⟨k, hk, hnk, hx'⟩ := h'.named c j hj hnj
  exact ⟨k, hk, hnk, hx'.trans hx⟩

/-- What a call that stores attributes leaves, if the attributes are the same. --/
theorem preserved_of_stored {c : ClientIno} {k : Nat} (hd : t.disk = (w.stored c initCd k).disk) (hp : t.pool = w.pool)
    (h : SameAttrs w t) : Preserved w t := by
  refine ⟨by rw [hd]; rfl, hp, fun x i hi hn => ?_⟩
  have hx := h x
  rw [hi] at hx
  obtain ⟨j, hj, hxattr⟩ := Option.map_eq_some_iff.mp hx
  refine ⟨j, hj, ?_, hxattr⟩
  rw [hd] at hj
  change (w.disk.modify c (·.setFirst k initCd)).inode x = some j at hj
  by_cases hxc : x = c
  · subst hxc
    rw [Disk.inode_modify_same, hi] at hj
    cases hj
    rw [ClientInode.attrs_setFirst]
    exact hn
  · rw [Disk.inode_modify_of_ne hxc, hi] at hj
    cases hj
    exact hn

theorem preserved_of_sameDisk (h : SameDisk w t) : Preserved w t :=
  ⟨by rw [h.disk], h.pool, fun c i hi hn => ⟨i, by rw [h.disk]; exact hi, hn, rfl⟩⟩

theorem preserved_evict (w : World) (d : Dentry) : Preserved w (w.evict d) := by
  refine ⟨rfl, rfl, fun c i hi hn => ⟨i, ?_, hn, rfl⟩⟩
  simp [World.evict, hi, hn]

theorem preserved_unmount (w : World) (kept : ClientIno → Bool) : Preserved w (w.unmount kept) := by
  refine ⟨rfl, rfl, fun c i hi hn => ⟨i, ?_, hn, rfl⟩⟩
  simp [World.unmount, hi, hn]

theorem Visit.preserved (h : v.Leaves w) : Preserved w (v.left w) := by
  cases v with
  | lookup dir name =>
    by_cases hf : ∃ c, LooksUp w dir name c
    · obtain ⟨c, hc⟩ := hf
      exact preserved_of_stored (lookup_stores hc).disk (lookup_stores hc).pool h
    · exact preserved_of_sameDisk (lookup_leaves fun c hc => hf ⟨c, hc⟩)
  | mount chunkId =>
    by_cases hf : ∃ c, FindsRoot w c
    · obtain ⟨c, hc⟩ := hf
      exact preserved_of_stored (readRoot_stores hc).disk (readRoot_stores hc).pool h
    · exact preserved_of_sameDisk (readRoot_leaves fun c hc => hf ⟨c, hc⟩)
  | evict d => exact preserved_evict w d
  | unmount kept => exact preserved_unmount w kept

/-- A run of visits that leave the attributes. --/
theorem run_preserved (h : Always visit (fun _ => True) Visit.Leaves w vs) (ht : run visit w vs = some t) :
    Preserved w t := by
  induction vs generalizing w with
  | nil =>
    cases ht
    exact .refl _
  | cons v vs ih =>
    obtain ⟨-, hleaves, hrest⟩ := h
    exact (Visit.preserved hleaves).trans (ih (hrest _ rfl) ht)

/-- A chain of named files is walked on a preserved disk as before. --/
theorem Preserved.traced (h : Preserved w t) {d : Dentry} {vn : Vnode} {cs : List Continuation}
    (hc : Traced (w.reboot d) d vn cs) (hn : ∀ c ∈ cs, ∀ i, w.disk.inode c.inode = some i → i.attrs.nlink ≠ 0) :
    Traced (t.reboot d) d vn cs where
  vnode := hc.vnode
  live := hc.live
  first := hc.first
  elem c hmem := by
    have he := hc.elem c hmem
    refine ⟨he.eq_loaded, h.pool ▸ he.pool, ?_, he.readable⟩
    have hdata : w.disk.contData? c.inode = some c.cd := he.data
    show t.disk.contData? c.inode = some c.cd
    unfold Disk.contData? at hdata ⊢
    cases hi : w.disk.inode c.inode with
    | none =>
      rw [hi] at hdata
      cases hdata
    | some i =>
      rw [hi] at hdata
      obtain ⟨j, hj, -, hx⟩ := h.named c.inode i hi (hn c hmem i hi)
      rw [hj]
      exact (ClientInode.contData?_of_xattr hx).trans hdata
  links := hc.links.imp fun a b hab => ⟨hab.not_head, hab.not_zero, hab.chunk, by
    show t.disk.path _ = _
    rw [h.path]
    exact hab.path⟩
  last := hc.last

/-- No lookup and no mount of the run changes an attribute, and the chains of named files are walked after the run as
    they were before it. --/
structure Unspoilt (w : World) (vs : List Visit) : Prop where
  attrs : Always visit (fun _ => True) Visit.Leaves w vs
  chains : ∀ t, run visit w vs = some t → ∀ d vn cs, Traced (w.reboot d) d vn cs →
    (∀ c ∈ cs, ∀ i, w.disk.inode c.inode = some i → i.attrs.nlink ≠ 0) →
    ∀ fuel, cs.length < fuel → ∃ t', walkConts fuel d none (t.reboot d) = .ok (.ok cs) t'

theorem run_visit : ∀ (vs : List Visit) (w : World), (run visit w vs).isSome
  | [], _ => rfl
  | v :: vs, w => run_visit vs (v.left w)

/-- A run spoils no file if and only if each of its lookups and mounts finds initial data or nothing. --/
theorem unspoilt_iff (w : World) (vs : List Visit) : Unspoilt w vs ↔ Each visit Visit.Harmless w vs := by
  have hruns : Always visit (fun _ => True) Visit.Leaves w vs ↔ Each visit Visit.Harmless w vs :=
    always_iff_each (I := fun _ => True) (fun _ _ => trivial) (fun s v _ hq => ⟨(leaves_iff s v).mpr hq, fun _ _ => trivial⟩)
      (fun s v _ _ _ hr _ => (leaves_iff s v).mp hr) trivial (run_visit vs w)
  refine ⟨fun h => hruns.mp h.attrs, fun h => ⟨hruns.mpr h, fun t ht d vn cs hc hn fuel hf => ?_⟩⟩
  have hcalm : Calm (t.reboot d) := rfl
  have htraced := (run_preserved (hruns.mpr h) ht).traced hc hn
  obtain ⟨t', hr, -⟩ := (walkConts_reads (htraced.follows hcalm.honest) hf _ (Warm.refl _)).calm hcalm
  exact ⟨t', hr⟩

end Visits

/-- The file of two client inodes under a name in the root directory. --/
def namedLinked : World :=
  { twoLinked 0 with
    disk := (twoLinked 0).disk.setEntry ⟨1, 12⟩ ['a'] (some firstIno)
    vnode := fun v => if v = 0 then some ⟨makeUino 1 12, zeroAttrs, 0, some ⟨1, 12⟩⟩ else (twoLinked 0).vnode v }

/-- The file is looked up again after its dentry has been evicted, and its second client inode is lost. --/
theorem spoilt_namedLinked :
    let vs : List Visit := [.evict firstDentry, .lookup 0 ['a']]
    (∃ cs w', cs.length = 2 ∧ walkConts 5 firstDentry none (namedLinked.reboot firstDentry) = .ok (.ok cs) w') ∧
      (∃ t, run visit namedLinked vs = some t ∧
        ∃ cs w', cs.length = 1 ∧ walkConts 5 firstDentry none (t.reboot firstDentry) = .ok (.ok cs) w') ∧
      ¬Unspoilt namedLinked vs := by
  intro vs
  refine ⟨?_, ⟨_, rfl, ?_⟩, fun h => ?_⟩
  · exact walked?_length (by decide +kernel)
  · exact walked?_length (by decide +kernel)
  · have hsame := (h.attrs.2.2 _ rfl).2.1 firstIno
    have hnext := congrArg (Option.map fun x : ContAttr → Option (List Char) => x .next) hsame
    revert hnext
    decide +kernel

end Chunkfs
