import Chunkfs.Theorems.Frames

/-! The private data of dentries, and the references that they hold. -/

namespace Chunkfs
namespace Dcache
open Tally
variable {s t x : Cache} {d k cd parent : Nat} {p : Priv} {a : Answers} {D : Dentry}

/-! ### What the dentries hold -/

/-- The client dentry that a dentry holds. --/
def Dentry.client (D : Dentry) : Option Nat := D.fsdata.bind Priv.clientDentry

/-- The client dentry of its nameidata. --/
def Dentry.nd (D : Dentry) : Option Nat := D.fsdata.bind Priv.ndDentry

def Dentry.mnt (D : Dentry) : Bool := (D.fsdata.map Priv.ndMnt).getD false

/-- How many dentries have a property. --/
def Cache.dentries (s : Cache) (q : Dentry → Bool) : Nat := tally s.dnext fun d => q (s.dentry d)

/-- Every reference and every piece of private data is held by exactly one dentry. --/
structure Cache.Conserved (s : Cache) : Prop where
  refs : ∀ cd, (s.clientDentry cd).count =
    s.dentries (fun D => D.client == some cd) + s.dentries fun D => D.nd == some cd
  mnts : s.mnts = s.dentries Dentry.mnt
  privs : s.privs = s.dentries fun D => D.fsdata.isSome
  nds : s.nds = s.dentries fun D => D.fsdata.isSome

/-- `chunkfs_release_dentry` finds private data with a client dentry and a nameidata. --/
def ReleasesFull (s : Cache) : Event → Prop
  | .release d => (s.dentry d).dops = true →
    ∃ p cd k, (s.dentry d).fsdata = some p ∧ p.clientDentry = some cd ∧ p.ndDentry = some k ∧ p.ndMnt = true
  | _ => True

def NewInode.isGood : NewInode → Bool
  | .good _ => true
  | _ => false

/-- The lookup has gone through to its end. --/
def Answers.fills (a : Answers) : Bool :=
  a.clone && match a.client with
    | .fails _ => false
    | .absent => true
    | _ => a.inode.isGood && a.cont.isNone

/-! ### References of the private data -/

theorem dput_count (s : Cache) (o : Option Nat) (k : Nat) :
    ((s.dput o).clientDentry k).count = (s.clientDentry k).count - if o = some k then 1 else 0 := by
  cases o with
  | none => simp [Cache.dput]
  | some cd =>
    by_cases hk : k = cd
    · simp [Cache.dput, hk]
    · simp [Cache.dput, hk, Ne.symm hk]

theorem freePriv_count (s : Cache) (d : Nat) (p : Priv) (k : Nat) : ((s.freePriv d p).clientDentry k).count =
    (s.clientDentry k).count - (if p.ndDentry = some k then 1 else 0) - if p.clientDentry = some k then 1 else 0 := by
  unfold Cache.freePriv
  rw [Cache.updDentry_clientDentry, Cache.addPrivs_clientDentry, dput_count, Cache.addMnts_clientDentry, dput_count]

theorem freePriv_mnts (s : Cache) (d : Nat) (p : Priv) : (s.freePriv d p).mnts = s.mnts - if p.ndMnt then 1 else 0 := by
  have hdput : ∀ (u : Cache) (o : Option Nat), (u.dput o).mnts = u.mnts := fun u o => by cases o <;> rfl
  unfold Cache.freePriv
  rw [Cache.updDentry_mnts, Cache.addPrivs_mnts, hdput, Cache.addMnts_mnts, hdput]
  cases p.ndMnt
  · simp
  · rfl

theorem freePriv_privs (s : Cache) (d : Nat) (p : Priv) :
    (s.freePriv d p).privs = s.privs - 1 ∧ (s.freePriv d p).nds = s.nds - 1 := by
  have hdput : ∀ (u : Cache) (o : Option Nat), (u.dput o).privs = u.privs ∧ (u.dput o).nds = u.nds :=
    fun u o => by cases o <;> exact ⟨rfl, rfl⟩
  unfold Cache.freePriv
  rw [Cache.updDentry_privs, Cache.updDentry_nds, Cache.addPrivs_privs, Cache.addPrivs_nds, (hdput _ _).1, (hdput _ _).2,
    Cache.addMnts_privs, Cache.addMnts_nds, (hdput _ _).1, (hdput _ _).2]
  exact ⟨rfl, rfl⟩

/-! ### Lookup -/

/-- What a lookup takes for its dentry, and no more. --/
structure Entered (s : Cache) (a : Answers) (t : Cache) (D : Dentry) : Prop where
  dops : D.dops = true
  answers : D.answers = a
  refs : ∀ k, (t.clientDentry k).count = (s.clientDentry k).count + (if D.client = some k then 1 else 0) +
    if D.nd = some k then 1 else 0
  mnts : t.mnts = s.mnts + if D.mnt then 1 else 0
  privs : t.privs = s.privs + (if D.fsdata.isSome then 1 else 0) ∧ t.nds = s.nds + if D.fsdata.isSome then 1 else 0
  full : if a.fills then ∃ cd, D.fsdata = some ⟨some cd, some s.cdnext, true⟩ ∧ cd < t.cdnext ∧ s.cdnext < t.cdnext
    else D.fsdata = none
  cdnext : s.cdnext ≤ t.cdnext

/-- What the client's lookup takes besides: the client dentry that it stands for. --/
theorem Answered.refs {found : Option (ClientIno × Bool)} (h : Answered s parent a x cd found)
    (halias : s.hasAlias a.client = true) (hz : (s.clientDentry s.cdnext).count = 0) :
    (∀ k, (x.clientDentry k).count = (s.clientDentry k).count + (if cd = k then 1 else 0) +
      if s.cdnext = k then 1 else 0) ∧ x.mnts = s.mnts + 1 ∧ x.privs = s.privs + 1 ∧ x.nds = s.nds + 1 := by
  cases h with
  | absent _ =>
    refine ⟨fun k => ?_, rfl, rfl, rfl⟩
    by_cases hk : k = s.cdnext
    · subst hk
      simp [hz]
    · simp [hk, Ne.symm hk]
  | found c isDir _ =>
    refine ⟨fun k => ?_, rfl, rfl, rfl⟩
    by_cases hk : k = s.cdnext
    · subst hk
      simp [hz]
    · simp [hk, Ne.symm hk]
  | «alias» other isDir ha =>
    rw [ha] at halias
    simp only [Cache.hasAlias, Bool.and_eq_true, decide_eq_true_eq] at halias
    refine ⟨fun k => ?_, rfl, rfl, rfl⟩
    rw [dput_count]
    by_cases hk : k = s.cdnext
    · subst hk
      simp [hz, halias.1.ne, halias.1.ne']
    · by_cases hko : k = cd
      · subst hko
        simp [hk, Ne.symm hk]
      · simp [hk, Ne.symm hk, hko, Ne.symm hko]

theorem Answers.fills_of_found (hf : a.client.isFound = true) : a.fills = (a.clone && (a.inode.isGood && a.cont.isNone)) := by
  unfold Answers.fills
  cases ha : a.client with
  | fails e => rw [ha] at hf; cases hf
  | absent => rw [ha] at hf; cases hf
  | found c isDir => rfl
  | «alias» other isDir => rfl

/-- A dentry that is left without private data has taken nothing. --/
theorem Entered.of_bare (hD : D.fsdata = none) (hdops : D.dops = true) (ha : D.answers = a) (hfills : a.fills = false)
    (hrefs : ∀ k, (t.clientDentry k).count = (s.clientDentry k).count) (hmnts : t.mnts = s.mnts)
    (hprivs : t.privs = s.privs ∧ t.nds = s.nds) (hcdnext : s.cdnext ≤ t.cdnext) : Entered s a t D where
  dops := hdops
  answers := ha
  refs k := by simp [hrefs, Dentry.client, Dentry.nd, hD]
  mnts := by simp [hmnts, Dentry.mnt, hD]
  privs := by simp [hprivs, hD]
  full := by simp [hfills, hD]
  cdnext := hcdnext

/-- A dentry that keeps its private data has taken what is in there. --/
theorem Entered.of_full (hD : D.fsdata = some ⟨some cd, some s.cdnext, true⟩) (hdops : D.dops = true)
    (ha : D.answers = a) (hfills : a.fills = true) (hlt : cd < t.cdnext) (hcdnext : s.cdnext < t.cdnext)
    (hrefs : ∀ k, (t.clientDentry k).count = (s.clientDentry k).count + (if cd = k then 1 else 0) +
      if s.cdnext = k then 1 else 0) (hmnts : t.mnts = s.mnts + 1)
    (hprivs : t.privs = s.privs + 1 ∧ t.nds = s.nds + 1) : Entered s a t D where
  dops := hdops
  answers := ha
  refs k := by simp [hrefs, Dentry.client, Dentry.nd, hD]
  mnts := by simp [hmnts, Dentry.mnt, hD]
  privs := by simp [hprivs, hD]
  full := by simp [hfills, hD, hlt, hcdnext]
  cdnext := hcdnext.le

theorem LookReturns.entered (h : LookReturns s parent a t) (halias : s.hasAlias a.client = true)
    (hz : (s.clientDentry s.cdnext).count = 0) :
    ∃ D, t.dentry = Function.update s.dentry s.dnext D ∧ Entered s a t D := by
  cases h with
  | noClone _ hclone =>
    refine ⟨{ Cache.newEntry parent a none with inUse := true }, by simp [Cache.newEntry], .of_bare rfl rfl rfl ?_ ?_ ?_ ?_ ?_⟩
    · simp [Answers.fills, hclone]
    · intro k
      rw [Cache.updDentry_clientDentry, freePriv_count]
      simp
    · rw [Cache.updDentry_mnts, freePriv_mnts]
      simp
    · rw [Cache.updDentry_privs, Cache.updDentry_nds, (freePriv_privs _ _ _).1, (freePriv_privs _ _ _).2]
      simp
    · simp
  | fails e _ _ hc =>
    refine ⟨Cache.newEntry parent a none, by simp [Cache.newEntry], .of_bare rfl rfl rfl ?_ ?_ ?_ ?_ ?_⟩
    · simp [Answers.fills, hc]
    · intro k
      rw [freePriv_count, dput_count]
      by_cases hk : k = s.cdnext
      · subst hk
        simp [hz]
      · simp [hk, Ne.symm hk]
    · rw [freePriv_mnts]
      simp [Cache.dput]
    · rw [(freePriv_privs _ _ _).1, (freePriv_privs _ _ _).2]
      simp [Cache.dput]
    · simp
  | unfilled x y cd found _ hclone hx hy =>
    obtain ⟨hrefs, hmnts, hprivs, hnds⟩ := hx.refs halias hz
    cases hy with
    | leaked slot hfound ha =>
      refine ⟨Cache.newEntry parent a none, by simp [hx.clientOnly.dentry, Cache.newEntry],
        .of_bare rfl rfl rfl ?_ ?_ ?_ ?_ ?_⟩
      · rcases hx.finds halias with ⟨-, hnone⟩ | ⟨c, isDir, hf, -, -⟩
        · exact absurd hnone hfound
        · rw [Answers.fills_of_found hf]
          rcases ha with ha | ⟨-, ha⟩
          · simp [ha, NewInode.isGood]
          · obtain ⟨e, he⟩ := Option.ne_none_iff_exists'.mp ha
            simp [he]
      · intro k
        rw [freePriv_count, dput_count, Cache.addInode_clientDentry, hrefs]
        simp
        omega
      · rw [freePriv_mnts]
        simp [Cache.dput, hmnts]
      · rw [(freePriv_privs _ _ _).1, (freePriv_privs _ _ _).2]
        simp [Cache.dput, hprivs, hnds]
      · simp [hx.clientOnly.cdnext]
  | filled x y cd found _ hclone hx hy =>
    obtain ⟨hrefs, hmnts, hprivs, hnds⟩ := hx.refs halias hz
    cases hy with
    | empty hnone =>
      refine ⟨{ Cache.newEntry parent a (some ⟨some cd, some s.cdnext, true⟩) with inUse := true, hashed := true },
        by simp [hx.clientOnly.dentry, Cache.newEntry], .of_full rfl rfl rfl ?_ ?_ ?_ hrefs hmnts ⟨hprivs, hnds⟩⟩
      · cases hx with
        | absent ha => simp [Answers.fills, ha, hclone.1]
        | found c isDir ha => cases hnone
        | «alias» other isDir ha =>
          rcases Answered.finds (.alias cd isDir ha) halias with ⟨hf, -⟩ | ⟨_, _, -, hf, -⟩
          · rw [ha] at hf
            cases hf
          · rw [hnone] at hf
            cases hf
      · have := hx.cd_le halias
        simp [hx.clientOnly.cdnext]
        omega
      · simp [hx.clientOnly.cdnext]
    | started slot c isDir chunkId hf hgood hcont =>
      refine ⟨{ Cache.newEntry parent a (some ⟨some cd, some s.cdnext, true⟩) with
        inode := some s.inext, inUse := true, hashed := true },
        by simp [hx.clientOnly.dentry, hx.clientOnly.inext, Cache.newEntry], .of_full rfl rfl rfl ?_ ?_ ?_ hrefs hmnts
        ⟨hprivs, hnds⟩⟩
      · rcases hx.finds halias with ⟨-, hnone⟩ | ⟨c', isDir', hf', -, -⟩
        · rw [hf] at hnone
          cases hnone
        · rw [Answers.fills_of_found hf', hclone.1, hgood, hcont]
          rfl
      · have := hx.cd_le halias
        simp [hx.clientOnly.cdnext]
        omega
      · simp [hx.clientOnly.cdnext]

/-! ### The events -/

/-- What the events keep. A dentry that the VFS has not released has full private data, or none when its lookup has
    not gone through. --/
structure Private (s : Cache) : Prop where
  conserved : s.Conserved
  dops : ∀ d < s.dnext, (s.dentry d).dops = true
  beyond : ∀ d, s.dnext ≤ d → (s.dentry d).fsdata = none
  freed : ∀ d, (s.dentry d).freed = true → (s.dentry d).fsdata = none
  full : ∀ d < s.dnext, (s.dentry d).freed = false →
    if (s.dentry d).answers.fills then
      ∃ cd k, (s.dentry d).fsdata = some ⟨some cd, some k, true⟩ ∧ cd < s.cdnext ∧ k < s.cdnext
    else (s.dentry d).fsdata = none

/-- The change of one dentry, and of what it holds. --/
theorem Cache.Conserved.change (h : s.Conserved) (hbeyond : ∀ d, s.dnext ≤ d → (s.dentry d).fsdata = none)
    (hdnext : s.dnext ≤ t.dnext) (hd : d < t.dnext) (hD : t.dentry = Function.update s.dentry d D)
    (hrefs : ∀ k, (t.clientDentry k).count + (if (s.dentry d).client = some k then 1 else 0) +
      (if (s.dentry d).nd = some k then 1 else 0) =
      (s.clientDentry k).count + (if D.client = some k then 1 else 0) + if D.nd = some k then 1 else 0)
    (hmnts : t.mnts + (if (s.dentry d).mnt then 1 else 0) = s.mnts + if D.mnt then 1 else 0)
    (hprivs : t.privs + (if (s.dentry d).fsdata.isSome then 1 else 0) = s.privs + if D.fsdata.isSome then 1 else 0)
    (hnds : t.nds + (if (s.dentry d).fsdata.isSome then 1 else 0) = s.nds + if D.fsdata.isSome then 1 else 0) :
    t.Conserved := by
  -- A property that dentries without private data do not have.
  have hcount : ∀ q : Dentry → Bool, (∀ E : Dentry, E.fsdata = none → q E = false) →
      (t.dentries q : Int) + (if q (s.dentry d) then 1 else 0) = s.dentries q + if q D then 1 else 0 := by
    intro q hq
    have hchange := tally_update (f := s.dentry) (r := q) D hdnext hd fun k hk => hq _ (hbeyond k hk)
    unfold Cache.dentries
    rw [hD]
    cases hs : q (s.dentry d) <;> cases ht : q D <;> simp only [hs, ht, Bool.false_eq_true, ↓reduceIte] at hchange ⊢ <;>
      omega
  refine ⟨fun cd => ?_, ?_, ?_, ?_⟩
  · have h₁ := hcount (fun E => E.client == some cd) fun E hE => by simp [Dentry.client, hE]
    have h₂ := hcount (fun E => E.nd == some cd) fun E hE => by simp [Dentry.nd, hE]
    have h₃ := hrefs cd
    rw [h.refs cd] at h₃
    simp only [beq_iff_eq] at h₁ h₂
    omega
  · have h₁ := hcount Dentry.mnt fun E hE => by simp [Dentry.mnt, hE]
    rw [h.mnts] at hmnts
    omega
  · have h₁ := hcount (fun E => E.fsdata.isSome) fun E hE => by simp [hE]
    rw [h.privs] at hprivs
    omega
  · have h₁ := hcount (fun E => E.fsdata.isSome) fun E hE => by simp [hE]
    rw [h.nds] at hnds
    omega

/-- A client dentry that is not known yet has no references. --/
theorem Private.fresh (h : Private s) : (s.clientDentry s.cdnext).count = 0 := by
  have hbare : ∀ k < s.dnext, (s.dentry k).client ≠ some s.cdnext ∧ (s.dentry k).nd ≠ some s.cdnext := by
    intro k hk
    have hnone : (s.dentry k).fsdata = none → (s.dentry k).client ≠ some s.cdnext ∧ (s.dentry k).nd ≠ some s.cdnext := by
      intro hp
      simp [Dentry.client, Dentry.nd, hp]
    cases hf : (s.dentry k).freed with
    | true => exact hnone (h.freed k hf)
    | false =>
      have hfull := h.full k hk hf
      split at hfull
      · obtain ⟨cd, nd, hp, hcd, hnd⟩ := hfull
        simp [Dentry.client, Dentry.nd, hp, hcd.ne, hnd.ne]
      · exact hnone hfull
  rw [h.conserved.refs]
  unfold Cache.dentries
  rw [tally_eq_zero fun k hk => by simp [(hbare k hk).1], tally_eq_zero fun k hk => by simp [(hbare k hk).2]]
  rfl

theorem Private.change (h : Private s) (hconserved : t.Conserved) (hdnext : s.dnext ≤ t.dnext)
    (hgrow : ∀ k < t.dnext, k < s.dnext ∨ k = d) (hcdnext : s.cdnext ≤ t.cdnext) (hd : d < t.dnext)
    (hD : t.dentry = Function.update s.dentry d D) (hdops : D.dops = true)
    (hfreed : D.freed = true → D.fsdata = none)
    (hfull : D.freed = false → if D.answers.fills then
      ∃ cd k, D.fsdata = some ⟨some cd, some k, true⟩ ∧ cd < t.cdnext ∧ k < t.cdnext else D.fsdata = none) :
    Private t where
  conserved := hconserved
  dops k hk := by
    rw [hD, Function.update_apply]
    split
    · exact hdops
    · rename_i hkd
      exact h.dops k ((hgrow k hk).resolve_right hkd)
  beyond k hk := by
    rw [hD, Function.update_of_ne (by omega)]
    exact h.beyond k (hdnext.trans hk)
  freed k hk := by
    rw [hD, Function.update_apply] at hk ⊢
    split
    · rename_i hkd
      rw [if_pos hkd] at hk
      exact hfreed hk
    · rename_i hkd
      rw [if_neg hkd] at hk
      exact h.freed k hk
  full k hk hf := by
    rw [hD, Function.update_apply] at hf ⊢
    by_cases hkd : k = d
    · rw [if_pos hkd] at hf ⊢
      exact hfull hf
    · rw [if_neg hkd] at hf ⊢
      have := h.full k ((hgrow k hk).resolve_right hkd) hf
      split at this
      · rename_i hfills
        rw [if_pos hfills]
        obtain ⟨cd, nd, hp, hcd, hnd⟩ := this
        exact ⟨cd, nd, hp, hcd.trans_le hcdnext, hnd.trans_le hcdnext⟩
      · rename_i hfills
        rw [if_neg hfills]
        exact this

theorem Private.look (h : Private s) (hr : LookReturns s parent a t) (halias : s.hasAlias a.client = true) :
    Private t := by
  have hdnext := hr.dentry.1
  obtain ⟨D, hD, he⟩ := hr.entered halias h.fresh
  have hbare := h.beyond s.dnext (Nat.le_refl _)
  have hlt : s.dnext < t.dnext := hdnext ▸ Nat.lt_succ_self _
  have hconserved : t.Conserved := by
    refine h.conserved.change h.beyond hlt.le hlt hD ?_ ?_ ?_ ?_
    · intro k
      simp [Dentry.client, Dentry.nd, hbare, he.refs k]
    · simp [Dentry.mnt, hbare, he.mnts]
    · simp [hbare, he.privs.1]
    · simp [hbare, he.privs.2]
  have hgrow : ∀ k < t.dnext, k < s.dnext ∨ k = s.dnext := by
    intro k hk
    omega
  obtain ⟨-, -, D', hD', hfree, -⟩ := hr.entry halias
  have hDD : D' = D := by simpa using congrFun (hD'.symm.trans hD) s.dnext
  subst hDD
  refine h.change hconserved hlt.le hgrow he.cdnext hlt hD he.dops (fun hf => ?_) fun _ => ?_
  · rw [hfree] at hf
    cases hf
  · rw [he.answers]
    have := he.full
    split at this
    · rename_i hfills
      rw [if_pos hfills]
      obtain ⟨cd, hp, hcd, hnd⟩ := this
      exact ⟨cd, s.cdnext, hp, hcd, hnd⟩
    · rename_i hfills
      rw [if_neg hfills]
      exact this

/-- What holds of the private data alone. --/
structure SamePrivate (s t : Cache) : Prop where
  dentry : ∀ k, (t.dentry k).fsdata = (s.dentry k).fsdata ∧ (t.dentry k).dops = (s.dentry k).dops ∧
    (t.dentry k).freed = (s.dentry k).freed ∧ (t.dentry k).answers = (s.dentry k).answers
  dnext : t.dnext = s.dnext
  cdnext : t.cdnext = s.cdnext
  refs : ∀ k, (t.clientDentry k).count = (s.clientDentry k).count
  mnts : t.mnts = s.mnts
  privs : t.privs = s.privs
  nds : t.nds = s.nds

theorem Private.same (h : Private s) (hs : SamePrivate s t) : Private t := by
  have hq : ∀ q : Dentry → Bool, (∀ k, q (t.dentry k) = q (s.dentry k)) → t.dentries q = s.dentries q := by
    intro q hq
    unfold Cache.dentries
    simp only [hq, hs.dnext]
  refine ⟨⟨fun cd => ?_, ?_, ?_, ?_⟩, ?_, ?_, ?_, ?_⟩
  · have hclient := hq (fun D => D.client == some cd) fun k => by rw [Dentry.client, Dentry.client, (hs.dentry k).1]
    have hnd := hq (fun D => D.nd == some cd) fun k => by rw [Dentry.nd, Dentry.nd, (hs.dentry k).1]
    rw [hs.refs, h.conserved.refs, hclient, hnd]
  · have hmnt := hq Dentry.mnt fun k => by rw [Dentry.mnt, Dentry.mnt, (hs.dentry k).1]
    rw [hs.mnts, h.conserved.mnts, hmnt]
  · have hsome := hq (fun D => D.fsdata.isSome) fun k => by rw [(hs.dentry k).1]
    rw [hs.privs, h.conserved.privs, hsome]
  · have hsome := hq (fun D => D.fsdata.isSome) fun k => by rw [(hs.dentry k).1]
    rw [hs.nds, h.conserved.nds, hsome]
  · intro k hk
    rw [(hs.dentry k).2.1]
    exact h.dops k (hs.dnext ▸ hk)
  · intro k hk
    rw [(hs.dentry k).1]
    exact h.beyond k (hs.dnext ▸ hk)
  · intro k hk
    rw [(hs.dentry k).1]
    exact h.freed k ((hs.dentry k).2.2.1 ▸ hk)
  · intro k hk hf
    rw [(hs.dentry k).1, (hs.dentry k).2.2.2, hs.cdnext]
    exact h.full k (hs.dnext ▸ hk) ((hs.dentry k).2.2.1 ▸ hf)

/-- Of the dentry of the event only the inode and whether it is cached change. --/
theorem samePrivate_dentry {o : Option Nat} {v : Bool}
    (hD : t.dentry = Function.update s.dentry d { s.dentry d with inode := o, hashed := v }) (k : Nat) :
    (t.dentry k).fsdata = (s.dentry k).fsdata ∧ (t.dentry k).dops = (s.dentry k).dops ∧
      (t.dentry k).freed = (s.dentry k).freed ∧ (t.dentry k).answers = (s.dentry k).answers := by
  rw [hD, Function.update_apply]
  split
  · rename_i hk
    subst hk
    exact ⟨rfl, rfl, rfl, rfl⟩
  · exact ⟨rfl, rfl, rfl, rfl⟩

theorem attach_count (s : Cache) (cd : Nat) (c : ClientIno) (k : Nat) :
    ((s.attach cd c).clientDentry k).count = (s.clientDentry k).count := by
  rw [Cache.attach_clientDentry, Function.update_apply]
  split
  · rename_i hk
    rw [hk]
  · rfl

theorem MakeReturns.samePrivate {isDir : Bool} {a : MakeAnswers} {dir : Nat} {cdir : ClientIno}
    (hr : MakeReturns s d isDir a dir cdir p t) : SamePrivate s t := by
  obtain ⟨hdnext, o, hD⟩ := hr.dentry
  have hdentry := samePrivate_dentry (v := (s.dentry d).hashed) hD
  cases hr with
  | bad slot _ => exact ⟨hdentry, hdnext, rfl, fun _ => rfl, rfl, rfl, rfl⟩
  | refused slot e _ _ => exact ⟨hdentry, hdnext, by simp, fun _ => by simp, by simp, by simp, by simp⟩
  | unfinished slot c cd e _ _ _ _ _ =>
    refine ⟨hdentry, hdnext, by simp, fun k => ?_, by simp, by simp, by simp⟩
    rw [Cache.put_clientDentry, Cache.changeAttrs_clientDentry, attach_count]
    rfl
  | made slot c cd chunkId _ _ _ _ _ =>
    refine ⟨hdentry, hdnext, by simp, fun k => ?_, by simp, by simp, by simp⟩
    rw [Cache.updDentry_clientDentry, Cache.copyUp_clientDentry, Cache.start_clientDentry, Cache.changeAttrs_clientDentry,
      attach_count]
    rfl

theorem LinkReturns.samePrivate {old new : Nat} {answer : Option Errno} (hr : LinkReturns s old new answer t) :
    SamePrivate s t := by
  obtain ⟨hdnext, o, hD⟩ := hr.dentry
  have hdentry := samePrivate_dentry (v := (s.dentry new).hashed) hD
  cases hr with
  | refused e _ => exact ⟨hdentry, hdnext, rfl, fun _ => rfl, rfl, rfl, rfl⟩
  | linked dir i cdOld cdNew c cOld p q _ _ _ _ _ _ _ _ _ _ _ _ =>
    refine ⟨hdentry, hdnext, by simp, fun k => ?_, by simp, by simp, by simp⟩
    rw [Cache.updDentry_clientDentry, Cache.updInode_clientDentry, Cache.copyUp_clientDentry, attach_count]

theorem RemoveReturns.samePrivate {answer : Option Errno} {keep : Bool} (hr : RemoveReturns s d answer keep t) :
    SamePrivate s t := by
  obtain ⟨hdnext, o, v, hD⟩ := hr.dentry
  have hdentry := samePrivate_dentry hD
  cases hr with
  | refused e _ => exact ⟨hdentry, hdnext, rfl, fun _ => rfl, rfl, rfl, rfl⟩
  | removed dir i cdir c p _ _ _ _ _ _ =>
    cases keep with
    | true => exact ⟨hdentry, hdnext, by simp, fun _ => by simp, by simp, by simp, by simp⟩
    | false => exact ⟨hdentry, hdnext, by simp, fun _ => by simp, by simp, by simp, by simp⟩

theorem Private.kill (h : Private s) (hr : KillReturns s d t) (hun : s.isUnused d = true) : Private t := by
  obtain ⟨-, hd, hfree, -⟩ := isUnused_iff.mp hun
  have hdnext := hr.dentry.1
  have hforget : ∀ o, (s.forget d o).mnts = s.mnts ∧ (s.forget d o).privs = s.privs ∧ (s.forget d o).nds = s.nds := by
    intro o
    cases o <;> simp [Cache.forget]
  cases hr with
  | plain _ hnot =>
    rw [h.dops d hd] at hnot
    cases hnot
  | priv p _ _ hp =>
    refine h.change (d := d) (D := { s.dentry d with inode := none, fsdata := none, hashed := false, freed := true })
      ?_ hdnext.ge (fun k hk => Or.inl (hdnext ▸ hk)) (by simp) (hdnext ▸ hd) (by simp [forget_dentry_update])
      (h.dops d hd) (fun _ => rfl) (fun hfreed => by cases hfreed)
    refine h.conserved.change h.beyond hdnext.ge (hdnext ▸ hd) (d := d)
      (D := { s.dentry d with inode := none, fsdata := none, hashed := false, freed := true })
      (by simp [forget_dentry_update]) (fun k => ?_) ?_ ?_ ?_
    · rw [Cache.updDentry_clientDentry, freePriv_count, forget_clientDentry]
      simp only [Dentry.client, Dentry.nd, hp]
      simp
    · rw [Cache.updDentry_mnts, freePriv_mnts, (hforget _).1]
      simp [Dentry.mnt, hp]
    · rw [Cache.updDentry_privs, (freePriv_privs _ _ _).1, (hforget _).2.1]
      simp [hp]
    · rw [Cache.updDentry_nds, (freePriv_privs _ _ _).2, (hforget _).2.2]
      simp [hp]

theorem Private.keeps (h : Private s) {e : Event} (hallows : s.allows e = true) (hr : e.Returns s t) : Private t := by
  cases e with
  | lookup parent a =>
    simp only [Cache.allows, Bool.and_eq_true] at hallows
    exact h.look hr hallows.2
  | create d a | mkdir d a | symlink d a | mknod d a =>
    obtain ⟨dir, cdir, p, -, hr⟩ := hr
    exact h.same hr.samePrivate
  | link old new answer => exact h.same hr.samePrivate
  | unlink d answer keep | rmdir d answer keep => exact h.same hr.samePrivate
  | release d => exact h.kill hr hallows
  | setattr d answer =>
    cases hr with
    | refused e _ => exact h
    | changed i cd c c' p _ _ _ _ _ _ _ =>
      exact h.same ⟨fun _ => by simp, by simp, by simp, fun _ => by simp, by simp, by simp, by simp⟩
  | writeInode i =>
    obtain ⟨c, -, -, rfl⟩ := hr
    exact h.same ⟨fun _ => ⟨rfl, rfl, rfl, rfl⟩, rfl, rfl, fun _ => rfl, rfl, rfl, rfl⟩

/-- The release of a dentry whose lookup has gone through. --/
def ReleasesLookedUp (s : Cache) (e : Event) : Prop := ∀ d, e = .release d → (s.dentry d).answers.fills = true

/-- `chunkfs_release_dentry` finds what it needs exactly where the lookup has gone through. --/
theorem Private.releasesFull_iff (h : Private s) {e : Event} (hallows : s.allows e = true) :
    ReleasesFull s e ↔ ReleasesLookedUp s e := by
  cases e with
  | release d =>
    obtain ⟨-, hd, hfree, -⟩ := isUnused_iff.mp hallows
    have hfull := h.full d hd hfree
    refine ⟨fun hr d' hd' => ?_, fun hl _ => ?_⟩
    · cases hd'
      obtain ⟨p, cd, k, hp, -⟩ := hr (h.dops d hd)
      split at hfull
      · rename_i hfills
        exact hfills
      · rw [hfull] at hp
        cases hp
    · rw [hl d rfl, if_pos rfl] at hfull
      obtain ⟨cd, k, hp, -, -⟩ := hfull
      exact ⟨_, cd, k, hp, rfl, rfl, rfl⟩
  | lookup _ _ | create _ _ | mkdir _ _ | symlink _ _ | mknod _ _ | link _ _ _ | unlink _ _ _ | rmdir _ _ _ | setattr _ _
  | writeInode _ => exact ⟨fun _ _ hd => (nomatch hd), fun _ => trivial⟩

/-! ### Runs -/

theorem mounted_private (c : ClientIno) (chunkId : Nat) : Private (mounted c chunkId) where
  conserved := by
    refine ⟨fun cd => ?_, rfl, rfl, rfl⟩
    cases cd with
    | zero => rfl
    | succ cd => rfl
  dops d hd := by
    cases Nat.lt_one_iff.mp hd
    rfl
  beyond d hd := by
    cases d with
    | zero => exact absurd hd (Nat.not_succ_le_zero 0)
    | succ d => rfl
  freed d hf := by
    cases d with
    | zero => cases hf
    | succ d => cases hf
  full d hd _ := by
    cases Nat.lt_one_iff.mp hd
    exact ⟨0, 0, rfl, Nat.one_pos, Nat.one_pos⟩

/-- The runs in which `chunkfs_release_dentry` always finds private data with a client dentry and a nameidata, and
    every reference is held by exactly one dentry, are those in which only dentries are released whose lookup has
    gone through. --/
theorem private_iff_looked_up {c : ClientIno} {chunkId : Nat} {es : List Event}
    (hrun : (Run.run step (.ok (mounted c chunkId)) es).isSome) :
    Run.Always step (InCache Cache.Conserved) (OfCall ReleasesFull) (.ok (mounted c chunkId)) es ↔
      Run.Each step (OfCall ReleasesLookedUp) (.ok (mounted c chunkId)) es := by
  refine Run.always_iff_each (I := InCache Private) (fun x hx s hs => (hx s hs).conserved) ?_ ?_ ?_ hrun
  · intro x e hx hq
    refine ⟨fun s hs hallows => ((hx s hs).releasesFull_iff hallows).mpr (hq s hs hallows), fun y hy t ht => ?_⟩
    subst ht
    obtain ⟨s, rfl, hallows, hret⟩ := step_ok hy
    exact (hx s rfl).keeps hallows hret
  · intro x e y hx _ hr _ s hs hallows
    exact ((hx s hs).releasesFull_iff hallows).mp (hr s hs hallows)
  · intro s hs
    cases hs
    exact mounted_private c chunkId

/-- A name that is not there is looked up and forgotten. --/
theorem private_absent_name : Run.Always step (InCache Cache.Conserved) (OfCall ReleasesFull) (.ok (mounted ⟨1, 12⟩ 1))
    [.lookup 0 ⟨true, true, true, true, .absent, .good .null, none⟩, .release 1] := by
  refine (private_iff_looked_up (by decide)).mpr ⟨?_, fun t ht => ⟨?_, fun _ _ => trivial⟩⟩
  · intro s _ _ d hd
    cases hd
  · intro s hs _ d hd
    cases ht
    cases hs
    cases hd
    rfl

/-- A lookup that the client refuses leaves a dentry with `chunkfs_dops` and no private data. --/
theorem release_after_refused_lookup :
    ¬Run.Always step (InCache Cache.Conserved) (OfCall ReleasesFull) (.ok (mounted ⟨1, 12⟩ 1))
      [.lookup 0 ⟨true, true, true, true, .fails .eio, .good .null, none⟩, .release 1] := by
  intro ha
  obtain ⟨p, cd, k, hp, -⟩ := (ha.2.2 _ rfl).2.1 _ rfl rfl rfl
  cases hp

end Dcache
end Chunkfs
