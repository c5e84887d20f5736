import Chunkfs.Theorems.Frames

/-! Lookups that fail, by the step at which they do. The labels of `chunkfs_lookup` undo what the client's lookup needs,
    and nothing that comes before or after it. -/

namespace Chunkfs
namespace Dcache
open Exec

/-- The steps of `chunkfs_lookup` that can fail. --/
inductive LookupStep where
  | initDentry
  | cloneDentry
  | clientLookup
  | newInode
  | initContData
deriving DecidableEq

/-- The client has put an inode into the client dentry. --/
def Cache.clientFinds (s : Cache) : ClientAnswer → Bool
  | .fails _ => false
  | .absent => false
  | .found _ _ => true
  | .alias other _ => (s.clientDentry other).inode.isSome

/-- The first step that fails, and its error. --/
def Answers.failing (s : Cache) (a : Answers) : Option (LookupStep × Errno) :=
  if !(a.priv && a.nd) then some (.initDentry, .enomem)
  else if !a.clone then some (.cloneDentry, .enomem)
  else match a.client with
    | .fails e => some (.clientLookup, e)
    | answer =>
      if s.clientFinds answer then
        match a.inode, a.cont with
        | .good _, none => none
        | .good _, some e => some (.initContData, e)
        | _, _ => some (.newInode, .eio)
      else none

/-- The directory in which a name is looked up: it has an inode and a client dentry, and its chunk is in the pool. --/
structure Enters (s : Cache) (parent : Nat) (a : Answers) : Prop where
  known : parent < s.dnext
  inode : ∃ i c, (s.dentry parent).inode = some i ∧ (s.inode i).count ≠ 0 ∧ (s.inode i).client = .set c
  priv : ∃ p cd, (s.dentry parent).fsdata = some p ∧ p.clientDentry = some cd
  chunk : a.chunk = true
  hasAlias : s.hasAlias a.client = true

/-- No reference is kept or given away, and nothing stays in memory. --/
structure NothingLeft (s t : Cache) : Prop where
  clientDentry : ∀ k < s.cdnext, (t.clientDentry k).count = (s.clientDentry k).count
  newClientDentry : ∀ k, s.cdnext ≤ k → k < t.cdnext → (t.clientDentry k).count = 0
  inode : ∀ i < s.inext, (t.inode i).count = (s.inode i).count
  newInode : ∀ i, s.inext ≤ i → i < t.inext → (t.inode i).count = 0
  mnts : t.mnts = s.mnts
  privs : t.privs = s.privs ∧ t.nds = s.nds

/-- The lookup of a new dentry reports the error and leaves nothing behind. --/
def FailsCleanly (s : Cache) (parent : Nat) (a : Answers) (e : Errno) : Prop :=
  ∃ t, lookup s.dnext a (s.addDentry parent a) = .ok (.error e) t ∧ NothingLeft s t

section Lookup
variable {s t x : Cache} {d i cd parent : Nat} {c : ClientIno} {p : Priv} {a : Answers} {e : Errno}

/-- `chunkfs_lookup` from where the directory is known. --/
theorem lookup_enters (h : Enters s parent a) : ∃ chunkId, lookup s.dnext a (s.addDentry parent a) = (do
    if !(← initDentry s.dnext a) then
      freeDentry s.dnext
      return .error .enomem
    match ← cloneDentry s.dnext a.clone with
    | none =>
      removeDentry s.dnext
      freeDentry s.dnext
      return .ok ()
    | some cd =>
      initNd s.dnext cd a.chunk
      match a.client with
      | .fails e => outDput s.dnext cd e
      | .absent => fillDentry s.dnext cd none chunkId a
      | .found c isDir =>
        attach cd c
        fillDentry s.dnext cd (some (c, isDir)) chunkId a
      | .alias other isDir =>
        dget other
        dput (some cd)
        fillDentry s.dnext other (((← get).clientDentry other).inode.map (·, isDir)) chunkId a : Dc (Except Errno Unit))
      (s.addDentry parent a) := by
  obtain ⟨i, c, hi, hcount, hclient⟩ := h.inode
  have hparent : (s.addDentry parent a).dentry ((s.addDentry parent a).dentry s.dnext).parent = s.dentry parent := by
    simp [h.known.ne]
  have hdir : dirOf s.dnext (s.addDentry parent a) = .ok i (s.addDentry parent a) := dirOf_ok.mpr ⟨by rw [hparent, hi], rfl⟩
  have hcl : getClientInode i (s.addDentry parent a) = .ok c (s.addDentry parent a) :=
    getClientInode_ok.mpr ⟨hcount, hclient, rfl⟩
  refine ⟨uinoToChunkId (s.inode i).ino, ?_⟩
  unfold lookup
  rw [bind_ok hdir, bind_ok hcl, bind_ok (get_apply _)]
  rfl

theorem initDentry_fails (hp : (x.dentry d).fsdata = none) (h : (a.priv && a.nd) = false) : initDentry d a x = .ok false x := by
  unfold initDentry
  rw [bind_ok (get_apply x)]
  cases hpriv : a.priv <;> cases hnd : a.nd <;> simp_all

theorem initDentry_works (h : (a.priv && a.nd) = true) :
    initDentry s.dnext a (s.addDentry parent a) = .ok true (s.inited parent a) := by
  obtain ⟨hpriv, hnd⟩ := Bool.and_eq_true_iff.mp h
  unfold initDentry
  rw [bind_ok (get_apply _)]
  simp [hpriv, hnd, bind_apply, Cache.inited]

theorem addDentry_fsdata : ((s.addDentry parent a).dentry s.dnext).fsdata = none := by simp

theorem inited_fsdata : ((s.inited parent a).dentry s.dnext).fsdata = some ⟨none, none, false⟩ := by simp [Cache.newEntry]

theorem cloned_fsdata : ((s.cloned parent a).dentry s.dnext).fsdata = some ⟨none, some s.cdnext, true⟩ := by
  simp [Cache.newEntry]

theorem initNd_works : initNd s.dnext s.cdnext true (s.inited parent a).addClientDentry = .ok ⟨⟩ (s.cloned parent a) := by
  have hp : ((s.inited parent a).addClientDentry.dentry s.dnext).fsdata = some ⟨none, none, false⟩ := inited_fsdata
  unfold initNd
  rw [bind_ok (chunkfsD_ok.mpr ⟨hp, rfl⟩)]
  rfl

/-- The parent's client dentry is there for the new one. --/
theorem cloneDentry_eq (h : Enters s parent a) : cloneDentry s.dnext a.clone (s.inited parent a) =
    if a.clone then .ok (some s.cdnext) (s.inited parent a).addClientDentry else .ok none (s.inited parent a) := by
  obtain ⟨p, cd, hp, hcd⟩ := h.priv
  have hparent : (((s.inited parent a).dentry ((s.inited parent a).dentry s.dnext).parent).fsdata) = some p := by
    simp [Cache.newEntry, h.known.ne, hp]
  unfold cloneDentry
  rw [bind_ok (get_apply _), bind_ok (getClientDentry_ok.mpr ⟨p, hparent, hcd, rfl⟩)]
  cases a.clone <;> rfl

/-- Without private data the way out goes through it all the same. --/
theorem lookup_uninited (h : Enters s parent a) (hpriv : (a.priv && a.nd) = false) :
    lookup s.dnext a (s.addDentry parent a) = .error .noPriv (s.addDentry parent a) := by
  obtain ⟨chunkId, hr⟩ := lookup_enters h
  rw [hr, bind_ok (initDentry_fails addDentry_fsdata hpriv)]
  refine bind_error (bind_error ?_)
  exact chunkfsD_none addDentry_fsdata

/-- Without a client dentry no error is set. --/
theorem lookup_uncloned (h : Enters s parent a) (hpriv : (a.priv && a.nd) = true) (hclone : a.clone = false) :
    ∃ t, lookup s.dnext a (s.addDentry parent a) = .ok (.ok ()) t := by
  obtain ⟨chunkId, hr⟩ := lookup_enters h
  have hc : cloneDentry s.dnext a.clone (s.inited parent a) = .ok none (s.inited parent a) := by
    rw [cloneDentry_eq h, hclone]
    rfl
  rw [hr, bind_ok (initDentry_works hpriv)]
  rw [Bool.not_true, if_neg nofun, bind_ok hc]
  dsimp only
  rw [bind_ok (removeDentry_eq inited_fsdata)]
  exact ⟨_, bind_ok (freeDentry_eq inited_fsdata)⟩

/-- `chunkfs_lookup` from where the client is asked. --/
theorem lookup_asks (h : Enters s parent a) (hpriv : (a.priv && a.nd) = true) (hclone : a.clone = true) :
    ∃ chunkId, lookup s.dnext a (s.addDentry parent a) = (match a.client with
      | .fails e => outDput s.dnext s.cdnext e
      | .absent => fillDentry s.dnext s.cdnext none chunkId a
      | .found c isDir => do
        attach s.cdnext c
        fillDentry s.dnext s.cdnext (some (c, isDir)) chunkId a
      | .alias other isDir => do
        dget other
        dput (some s.cdnext)
        fillDentry s.dnext other (((← get).clientDentry other).inode.map (·, isDir)) chunkId a : Dc (Except Errno Unit))
      (s.cloned parent a) := by
  obtain ⟨chunkId, hr⟩ := lookup_enters h
  have hc : cloneDentry s.dnext a.clone (s.inited parent a) = .ok (some s.cdnext) (s.inited parent a).addClientDentry := by
    rw [cloneDentry_eq h, hclone]
    rfl
  refine ⟨chunkId, ?_⟩
  rw [hr, bind_ok (initDentry_works hpriv), Bool.not_true, if_neg nofun, bind_ok hc]
  dsimp only
  rw [h.chunk, bind_ok initNd_works]

/-- Where chunkfs has no use for the inode that the client found, it gives back the client's and keeps its own. --/
theorem fillDentry_leaks (hp : (x.dentry d).fsdata = some p) (found : ClientIno × Bool) (chunkId : Nat) {e : Errno}
    (h : fillDentry d cd (some found) chunkId a x = .ok (.error e) t) : t.inext = x.inext + 1 ∧ (t.inode x.inext).count = 1 := by
  cases fillDentry_ok h hp with
  | leaked slot _ _ => exact ⟨by simp, by simp⟩

/-- What the labels from `out_dput` on undo, where the client has found nothing. --/
theorem nothingLeft_outDput :
    NothingLeft s (((s.cloned parent a).dput (some s.cdnext)).freePriv s.dnext ⟨none, some s.cdnext, true⟩) where
  clientDentry k hk := by simp [Cache.freePriv, Cache.dput, Cache.cloned, hk.ne]
  newClientDentry k hk hlt := by
    obtain rfl : k = s.cdnext := by
      simp only [Cache.freePriv_cdnext, Cache.dput_cdnext, Cache.cloned_cdnext] at hlt
      omega
    simp [Cache.freePriv, Cache.dput, Cache.cloned]
  inode i hi := by simp
  newInode i hi hlt := by
    simp only [Cache.freePriv_inext, Cache.dput_inext, Cache.cloned_inext] at hlt
    omega
  mnts := by
    simp only [Cache.freePriv, Cache.dput, Cache.updDentry_mnts, Cache.addPrivs_mnts, Cache.addMnts_mnts,
      Cache.updClientDentry_mnts, Cache.cloned_mnts, ↓reduceIte]
    omega
  privs := by
    simp only [Cache.freePriv, Cache.dput, Cache.updDentry_privs, Cache.updDentry_nds, Cache.addPrivs_privs,
      Cache.addPrivs_nds, Cache.addMnts_privs, Cache.addMnts_nds, Cache.updClientDentry_privs, Cache.updClientDentry_nds,
      Cache.cloned_privs, Cache.cloned_nds]
    omega

theorem not_nothingLeft_of_leak (hn : s.inext < t.inext) (hc : (t.inode s.inext).count = 1) : ¬NothingLeft s t := fun h => by
  have := h.newInode s.inext (Nat.le_refl _) hn
  omega

/-- A lookup that comes to `chunkfs_new_inode` and fails leaves a chunkfs inode. --/
theorem lookup_leaks (h : Enters s parent a) (hpriv : (a.priv && a.nd) = true) (hclone : a.clone = true)
    (hfound : s.clientFinds a.client = true) (hr : lookup s.dnext a (s.addDentry parent a) = .ok (.error e) t) : ¬NothingLeft s t := by
  obtain ⟨chunkId, hasks⟩ := lookup_asks h hpriv hclone
  rw [hasks] at hr
  cases hc : a.client with
  | fails e =>
    rw [hc] at hfound
    cases hfound
  | absent =>
    rw [hc] at hfound
    cases hfound
  | found c isDir =>
    rw [hc] at hr
    dsimp only at hr
    obtain ⟨_, x, hattach, hfill⟩ := bind_eq_ok.mp hr
    cases hattach
    obtain ⟨hn, hcount⟩ := fillDentry_leaks (x := (s.cloned parent a).attach s.cdnext c) cloned_fsdata (c, isDir) chunkId hfill
    exact not_nothingLeft_of_leak (by rw [hn]; exact Nat.lt_succ_self _) hcount
  | «alias» other isDir =>
    rw [hc] at hr
    dsimp only at hr
    obtain ⟨_, x, hget, hr⟩ := bind_eq_ok.mp hr
    obtain ⟨_, y, hput, hr⟩ := bind_eq_ok.mp hr
    cases hget
    cases hput
    rw [bind_ok (get_apply _)] at hr
    have halias := h.hasAlias
    rw [hc] at halias
    simp only [Cache.hasAlias, Bool.and_eq_true, decide_eq_true_eq, Option.isSome_iff_exists] at halias
    obtain ⟨hlt, c, hcd⟩ := halias
    generalize hy : ((s.cloned parent a).updClientDentry other fun x => { x with count := x.count + 1 }).dput (some s.cdnext) = y
    have hinode : (y.clientDentry other).inode = some c := by
      rw [← hy]
      simp [hlt.ne, hcd]
    have hfsdata : (y.dentry s.dnext).fsdata = some ⟨none, some s.cdnext, true⟩ := by
      rw [← hy]
      exact cloned_fsdata
    have hinext : y.inext = s.inext := by
      rw [← hy]
      rfl
    replace hr : fillDentry s.dnext other ((y.clientDentry other).inode.map (·, isDir)) chunkId a y = .ok (.error e) t := by
      rw [← hy]
      exact hr
    rw [hinode] at hr
    obtain ⟨hn, hcount⟩ := fillDentry_leaks hfsdata (c, isDir) chunkId hr
    rw [hinext] at hn hcount
    exact not_nothingLeft_of_leak (by rw [hn]; exact Nat.lt_succ_self _) hcount

/-- A failed lookup fails cleanly if and only if it is the client's lookup that has failed. --/
theorem fails_lookup_iff (h : Enters s parent a) {step : LookupStep} (hf : a.failing s = some (step, e)) :
    FailsCleanly s parent a e ↔ step = .clientLookup := by
  unfold Answers.failing at hf
  split at hf
  · rename_i hpriv
    cases hf
    refine ⟨?_, nofun⟩
    rintro ⟨t, hr, -⟩
    rw [lookup_uninited h ((Bool.not_eq_true' _).mp hpriv)] at hr
    cases hr
  · rename_i hpriv
    replace hpriv : (a.priv && a.nd) = true := by simpa using hpriv
    split at hf
    · rename_i hclone
      cases hf
      refine ⟨?_, nofun⟩
      rintro ⟨t, hr, -⟩
      obtain ⟨t', hr'⟩ := lookup_uncloned h hpriv (by simpa using hclone)
      rw [hr'] at hr
      cases hr
    · rename_i hclone
      replace hclone : a.clone = true := by simpa using hclone
      split at hf
      · rename_i hc
        cases hf
        refine ⟨fun _ => rfl, fun _ => ?_⟩
        obtain ⟨chunkId, hasks⟩ := lookup_asks h hpriv hclone
        rw [hc] at hasks
        exact ⟨_, hasks.trans (outDput_eq cloned_fsdata s.cdnext _), nothingLeft_outDput⟩
      · split at hf
        · rename_i hfound
          -- Wherever it fails from here on, an inode is left.
          have hleaks : ¬FailsCleanly s parent a e := fun ⟨_, hr, hn⟩ => lookup_leaks h hpriv hclone hfound hr hn
          split at hf
          · cases hf
          · cases hf
            exact ⟨fun hc => absurd hc hleaks, nofun⟩
          · cases hf
            exact ⟨fun hc => absurd hc hleaks, nofun⟩
        · cases hf

end Lookup

/-! ### A lookup in the root directory -/

theorem mounted_enters {a : Answers} (hchunk : a.chunk = true) (halias : (mounted ⟨1, 12⟩ 1).hasAlias a.client = true) :
    Enters (mounted ⟨1, 12⟩ 1) 0 a where
  known := by decide
  inode := ⟨0, ⟨1, 12⟩, rfl, by decide, rfl⟩
  priv := ⟨_, 0, rfl, rfl⟩
  chunk := hchunk
  hasAlias := halias

theorem fails_lookup_refused : FailsCleanly (mounted ⟨1, 12⟩ 1) 0 ⟨true, true, true, true, .fails .eio, .good .null, none⟩ .eio :=
  (fails_lookup_iff (mounted_enters rfl rfl) rfl).mpr rfl

/-- Without memory for the client dentry the lookup goes through. --/
theorem not_fails_lookup_uncloned :
    Enters (mounted ⟨1, 12⟩ 1) 0 ⟨true, true, false, true, .absent, .good .null, none⟩ ∧
      Answers.failing (mounted ⟨1, 12⟩ 1) ⟨true, true, false, true, .absent, .good .null, none⟩ = some (.cloneDentry, .enomem) ∧
      ¬FailsCleanly (mounted ⟨1, 12⟩ 1) 0 ⟨true, true, false, true, .absent, .good .null, none⟩ .enomem := by
  refine ⟨mounted_enters rfl rfl, rfl, ?_⟩
  rintro ⟨t, hr, -⟩
  obtain ⟨t', hr'⟩ := lookup_uncloned (mounted_enters (a := ⟨true, true, false, true, .absent, .good .null, none⟩) rfl rfl) rfl rfl
  rw [hr'] at hr
  cases hr

end Dcache
end Chunkfs
