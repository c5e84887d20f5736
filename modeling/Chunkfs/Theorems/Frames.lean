import Chunkfs.Theorems.Returns
import Chunkfs.Lib.Tally

/-! What the operations on dentries leave alone: every event is about one dentry. -/

namespace Chunkfs
namespace Dcache
variable {s t x : Cache} {d i k cd parent : Nat} {c : ClientIno} {p : Priv} {a : Answers}

/-! ### The parts of the cache -/

namespace Cache

@[simp] theorem dput_dnext (s : Cache) (o : Option Nat) : (s.dput o).dnext = s.dnext := by
  cases o <;> rfl

@[simp] theorem dput_inode (s : Cache) (o : Option Nat) : (s.dput o).inode = s.inode := by
  cases o <;> rfl

@[simp] theorem dput_inext (s : Cache) (o : Option Nat) : (s.dput o).inext = s.inext := by
  cases o <;> rfl

@[simp] theorem dput_client (s : Cache) (o : Option Nat) : (s.dput o).client = s.client := by
  cases o <;> rfl

@[simp] theorem dput_cdnext (s : Cache) (o : Option Nat) : (s.dput o).cdnext = s.cdnext := by
  cases o <;> rfl

@[simp] theorem dput_edition (s : Cache) (o : Option Nat) : (s.dput o).edition = s.edition := by
  cases o <;> rfl

@[simp] theorem dput_clientDentry_inode (s : Cache) (o : Option Nat) (k : Nat) :
    ((s.dput o).clientDentry k).inode = (s.clientDentry k).inode := by
  cases o with
  | none => rfl
  | some cd =>
    simp only [dput, updClientDentry_clientDentry, Function.update_apply]
    split
    · rename_i hk
      rw [hk]
    · rfl

attribute [simp] dput_dentry

section Parts
variable (s : Cache) (parent d : Nat) (a : Answers) (p : Priv)

/-- A new dentry, while its lookup goes on. --/
def newEntry (parent : Nat) (a : Answers) (fsdata : Option Priv) : Dentry :=
  { parent := parent, inode := none, fsdata := fsdata, dops := true, inUse := false, hashed := false, freed := false,
    answers := a }

@[simp] theorem inited_dentry : (s.inited parent a).dentry =
    Function.update s.dentry s.dnext (newEntry parent a (some ⟨none, none, false⟩)) := by
  simp [inited, newEntry]

@[simp] theorem inited_dnext : (s.inited parent a).dnext = s.dnext + 1 := rfl
@[simp] theorem inited_inode : (s.inited parent a).inode = s.inode := rfl
@[simp] theorem inited_inext : (s.inited parent a).inext = s.inext := rfl
@[simp] theorem inited_client : (s.inited parent a).client = s.client := rfl
@[simp] theorem inited_clientDentry : (s.inited parent a).clientDentry = s.clientDentry := rfl
@[simp] theorem inited_cdnext : (s.inited parent a).cdnext = s.cdnext := rfl
@[simp] theorem inited_edition : (s.inited parent a).edition = s.edition := rfl
@[simp] theorem inited_mnts : (s.inited parent a).mnts = s.mnts := rfl
@[simp] theorem inited_privs : (s.inited parent a).privs = s.privs + 1 := rfl
@[simp] theorem inited_nds : (s.inited parent a).nds = s.nds + 1 := rfl

@[simp] theorem cloned_dentry : (s.cloned parent a).dentry =
    Function.update s.dentry s.dnext (newEntry parent a (some ⟨none, some s.cdnext, true⟩)) := by
  simp [cloned, newEntry]

@[simp] theorem cloned_clientDentry : (s.cloned parent a).clientDentry =
    Function.update s.clientDentry s.cdnext ⟨none, 2⟩ := by
  simp [cloned]

@[simp] theorem cloned_dnext : (s.cloned parent a).dnext = s.dnext + 1 := rfl
@[simp] theorem cloned_inode : (s.cloned parent a).inode = s.inode := rfl
@[simp] theorem cloned_inext : (s.cloned parent a).inext = s.inext := rfl
@[simp] theorem cloned_client : (s.cloned parent a).client = s.client := rfl
@[simp] theorem cloned_cdnext : (s.cloned parent a).cdnext = s.cdnext + 1 := rfl
@[simp] theorem cloned_edition : (s.cloned parent a).edition = s.edition := rfl
@[simp] theorem cloned_mnts : (s.cloned parent a).mnts = s.mnts + 1 := rfl
@[simp] theorem cloned_privs : (s.cloned parent a).privs = s.privs + 1 := rfl
@[simp] theorem cloned_nds : (s.cloned parent a).nds = s.nds + 1 := rfl

@[simp] theorem freePriv_dentry : (s.freePriv d p).dentry =
    Function.update s.dentry d { s.dentry d with fsdata := none } := by
  simp [freePriv]

@[simp] theorem freePriv_dnext : (s.freePriv d p).dnext = s.dnext := by simp [freePriv]
@[simp] theorem freePriv_inode : (s.freePriv d p).inode = s.inode := by simp [freePriv]
@[simp] theorem freePriv_inext : (s.freePriv d p).inext = s.inext := by simp [freePriv]
@[simp] theorem freePriv_client : (s.freePriv d p).client = s.client := by simp [freePriv]
@[simp] theorem freePriv_cdnext : (s.freePriv d p).cdnext = s.cdnext := by simp [freePriv]
@[simp] theorem freePriv_edition : (s.freePriv d p).edition = s.edition := by simp [freePriv]

@[simp] theorem freePriv_clientDentry_inode :
    ((s.freePriv d p).clientDentry k).inode = (s.clientDentry k).inode := by
  simp [freePriv]

end Parts

end Cache

/-! ### One dentry -/

theorem MakeReturns.dentry {isDir : Bool} {a : MakeAnswers} {dir : Nat} {cdir : ClientIno}
    (h : MakeReturns s d isDir a dir cdir p t) :
    t.dnext = s.dnext ∧ ∃ o, t.dentry = Function.update s.dentry d { s.dentry d with inode := o } := by
  cases h with
  | bad slot _ => exact ⟨rfl, (s.dentry d).inode, by simp⟩
  | refused slot _ _ _ => exact ⟨by simp, (s.dentry d).inode, by simp⟩
  | unfinished slot c cd _ _ _ _ _ _ => exact ⟨by simp, (s.dentry d).inode, by simp⟩
  | made slot c cd chunkId _ _ _ _ _ => exact ⟨by simp, some s.inext, by simp⟩

/-- The client's lookup is about client dentries and client inodes. --/
structure ClientOnly (s x : Cache) : Prop where
  dentry : x.dentry = s.dentry
  dnext : x.dnext = s.dnext
  inode : x.inode = s.inode
  inext : x.inext = s.inext
  cdnext : x.cdnext = s.cdnext
  edition : x.edition = s.edition
  attrs : ∀ c, (x.client c).attrs = (s.client c).attrs ∧ (x.client c).last = (s.client c).last

theorem attach_attrs (s : Cache) (cd : Nat) (c c' : ClientIno) : ((s.attach cd c).client c').attrs = (s.client c').attrs ∧
    ((s.attach cd c).client c').last = (s.client c').last := by
  rw [Cache.attach_client, Function.update_apply]
  split
  · rename_i hc
    rw [hc]
    exact ⟨rfl, rfl⟩
  · exact ⟨rfl, rfl⟩

theorem Answered.clientOnly {found : Option (ClientIno × Bool)} (h : Answered s parent a x cd found) :
    ClientOnly (s.cloned parent a) x := by
  cases h with
  | absent _ => exact ⟨rfl, rfl, rfl, rfl, rfl, rfl, fun _ => ⟨rfl, rfl⟩⟩
  | found c isDir _ => exact ⟨rfl, rfl, rfl, rfl, rfl, rfl, attach_attrs _ _ c⟩
  | «alias» other isDir _ => exact ⟨rfl, rfl, rfl, rfl, rfl, rfl, fun _ => ⟨rfl, rfl⟩⟩

theorem LookReturns.dentry (h : LookReturns s parent a t) : t.dnext = s.dnext + 1 ∧
    ∃ i? p b v, t.dentry = Function.update s.dentry s.dnext
      { Cache.newEntry parent a p with inode := i?, inUse := b, hashed := v } := by
  cases h with
  | noClone _ _ => exact ⟨by simp, none, none, true, false, by simp [Cache.newEntry]⟩
  | fails _ _ _ _ => exact ⟨by simp, none, none, false, false, by simp [Cache.newEntry]⟩
  | unfilled x y cd found _ _ hx hy =>
    cases hy with
    | leaked slot _ _ =>
      exact ⟨by simp [hx.clientOnly.dnext], none, none, false, false, by simp [hx.clientOnly.dentry, Cache.newEntry]⟩
  | filled x y cd found _ _ hx hy =>
    cases hy with
    | empty _ =>
      exact ⟨by simp [hx.clientOnly.dnext], none, some ⟨some cd, some s.cdnext, true⟩, true, true,
        by simp [hx.clientOnly.dentry, Cache.newEntry]⟩
    | started slot c isDir chunkId _ _ _ =>
      exact ⟨by simp [hx.clientOnly.dnext], some x.inext, some ⟨some cd, some s.cdnext, true⟩, true, true,
        by simp [hx.clientOnly.dentry, Cache.newEntry]⟩

theorem RemoveReturns.dentry {answer : Option Errno} {keep : Bool} (h : RemoveReturns s d answer keep t) :
    t.dnext = s.dnext ∧ ∃ i? v, t.dentry = Function.update s.dentry d { s.dentry d with inode := i?, hashed := v } := by
  cases h with
  | refused e _ => exact ⟨rfl, (s.dentry d).inode, (s.dentry d).hashed, by simp⟩
  | removed dir i cdir c p _ _ _ _ _ _ =>
    cases keep with
    | true => exact ⟨by simp, none, (s.dentry d).hashed, by simp⟩
    | false => exact ⟨by simp, (s.dentry d).inode, false, by simp⟩

@[simp] theorem forget_dnext (o : Option Nat) : (s.forget d o).dnext = s.dnext := by
  cases o <;> simp [Cache.forget]

@[simp] theorem forget_clientDentry (o : Option Nat) : (s.forget d o).clientDentry = s.clientDentry := by
  cases o <;> simp [Cache.forget]

@[simp] theorem forget_cdnext (o : Option Nat) : (s.forget d o).cdnext = s.cdnext := by
  cases o <;> simp [Cache.forget]

@[simp] theorem forget_inext (o : Option Nat) : (s.forget d o).inext = s.inext := by
  cases o <;> simp [Cache.forget]

theorem forget_count {o : Option Nat} (k : Nat) : ((s.forget d o).inode k).count =
    if o = some k then (s.inode k).count - 1 else (s.inode k).count := by
  cases o with
  | none => rfl
  | some i =>
    simp only [Cache.forget, Cache.put_inode, Cache.updDentry_inode, Function.update_apply, Option.some.injEq]
    by_cases hk : k = i
    · simp [hk]
    · simp [hk, Ne.symm hk]

theorem forget_dentry_update : (s.forget d (s.dentry d).inode).dentry =
    Function.update s.dentry d { s.dentry d with inode := none } := by
  cases hi : (s.dentry d).inode with
  | none =>
    have : s.dentry d = { s.dentry d with inode := none } := by rw [← hi]
    rw [← this]
    simp [Cache.forget]
  | some i => simp [Cache.forget]

theorem KillReturns.dentry (h : KillReturns s d t) : t.dnext = s.dnext ∧
    ∃ q, (q = none ∨ q = (s.dentry d).fsdata) ∧ t.dentry = Function.update s.dentry d
      { s.dentry d with inode := none, fsdata := q, hashed := false, freed := true } := by
  cases h with
  | plain _ _ => exact ⟨by simp, (s.dentry d).fsdata, Or.inr rfl, by simp [forget_dentry_update]⟩
  | priv p _ _ _ => exact ⟨by simp, none, Or.inl rfl, by simp [forget_dentry_update]⟩

theorem LinkReturns.dentry {old new : Nat} {answer : Option Errno} (h : LinkReturns s old new answer t) :
    t.dnext = s.dnext ∧ ∃ i?, t.dentry = Function.update s.dentry new { s.dentry new with inode := i? } := by
  cases h with
  | refused e _ => exact ⟨rfl, (s.dentry new).inode, by simp⟩
  | linked dir i _ _ _ _ _ _ _ _ _ _ _ _ _ _ _ _ _ _ => exact ⟨by simp, some i, by simp⟩

/-- What a link that works does to the inodes. --/
theorem LinkReturns.inodes {old new : Nat} (h : LinkReturns s old new none t) :
    ∃ dir i c, (s.dentry (s.dentry new).parent).inode = some dir ∧ (s.dentry old).inode = some i ∧
      t.dentry = Function.update s.dentry new { s.dentry new with inode := some i } ∧
      t.inode = ((s.copyUp i c).updInode dir fun x => { x with count := x.count + 1 }).inode := by
  cases h with
  | refused e he => cases he
  | linked dir i cdOld cdNew c cOld p q _ hdir _ hi _ _ _ _ _ _ _ _ =>
    exact ⟨dir, i, cOld, hdir, hi, by simp, by simp only [Cache.updDentry_inode, Cache.updInode_inode,
      Cache.copyUp_inode, Cache.attach_inode, (attach_attrs s cdNew c cOld).1]⟩

/-! ### What the VFS has looked at -/

theorem isNegative_iff : s.isNegative d = true ↔ (s.dentry d).inUse = true ∧ (s.dentry d).freed = false ∧
    (s.dentry d).inode = none ∧ s.isDir (s.dentry d).parent = true := by
  simp [Cache.isNegative, and_assoc]

theorem hasInode_iff {isDir : Bool} :
    s.hasInode d isDir = true ↔ ∃ i, (s.dentry d).inode = some i ∧ (s.inode i).isDir = isDir := by
  unfold Cache.hasInode
  cases (s.dentry d).inode <;> simp

theorem isDir_iff : s.isDir d = true ↔ (s.dentry d).freed = false ∧
    ∃ i, (s.dentry d).inode = some i ∧ (s.inode i).isDir = true := by
  simp [Cache.isDir, hasInode_iff]

theorem isPositive_iff {isDir : Bool} : s.isPositive d isDir = true ↔ (s.dentry d).inUse = true ∧
    (s.dentry d).freed = false ∧ ∃ i, (s.dentry d).inode = some i ∧ (s.inode i).isDir = isDir := by
  simp [Cache.isPositive, hasInode_iff, and_assoc]

theorem isRemovable_iff {isDir : Bool} : s.isRemovable d isDir = true ↔
    s.isPositive d isDir = true ∧ (s.dentry d).hashed = true ∧ 0 < d ∧ s.isDir (s.dentry d).parent = true := by
  simp [Cache.isRemovable, and_assoc]

theorem isUnused_iff : s.isUnused d = true ↔ 0 < d ∧ d < s.dnext ∧ (s.dentry d).freed = false ∧
    ∀ k < s.dnext, (s.dentry k).parent = d → (s.dentry k).freed = true := by
  simp [Cache.isUnused, and_assoc, List.all_eq_true, imp_iff_not_or]

/-! ### The inode of a lookup -/

def ClientAnswer.isFound : ClientAnswer → Bool
  | .found _ _ => true
  | .alias _ _ => true
  | _ => false

/-- The client found an inode, and chunkfs cannot use its own. --/
def Answers.Leaks (a : Answers) : Prop :=
  a.clone = true ∧ a.client.isFound = true ∧ ((∃ slot, a.inode = .bad slot) ∨ a.cont ≠ none)

/-- What chunkfs needs for an inode of its own. --/
def Answers.Works (a : Answers) : Prop := a.clone = true ∧ (∃ slot, a.inode = .good slot) ∧ a.cont = none

theorem Answers.Works.not_leaks (h : a.Works) : ¬a.Leaks := by
  rintro ⟨-, -, ⟨slot', hbad⟩ | hne⟩
  · obtain ⟨-, ⟨slot, hgood⟩, -⟩ := h
    rw [hgood] at hbad
    cases hbad
  · exact hne h.2.2

/-- The client inode that a lookup found. --/
inductive Finds (s : Cache) (a : Answers) : ClientIno → Nat → Prop
  | new (c : ClientIno) (isDir : Bool) (h : a.client = .found c isDir) : Finds s a c s.cdnext
  | old (c : ClientIno) (other : Nat) (isDir : Bool) (h : a.client = .alias other isDir) (hlt : other < s.cdnext)
      (hc : (s.clientDentry other).inode = some c) : Finds s a c other

/-- What a lookup does to the inodes, and with which dentry. --/
inductive LookInodes (s : Cache) (a : Answers) (D : Dentry) (t : Cache) : Prop
  | same (hD : D.inode = none) (hi : t.inode = s.inode) (hn : t.inext = s.inext)
      (ha : a.clone = false ∨ a.client.isFound = false)
  | leaked (slot : Slot) (hD : D.inode = none) (hi : t.inode = (s.addInode slot).inode) (hn : t.inext = s.inext + 1)
      (ha : a.Leaks)
  | started (c : ClientIno) (cd chunkId : Nat) (isDir : Bool) (hD : D.inode = some s.inext)
      (hp : D.fsdata = some ⟨some cd, some s.cdnext, true⟩)
      (hi : t.inode = Function.update s.inode s.inext
        { count := 1, client := .set c, ino := makeUino chunkId c.ino, isDir := isDir, attrs := (s.client c).attrs })
      (hn : t.inext = s.inext + 1) (ha : a.Works) (hc : Finds s a c cd) (hcd : (t.clientDentry cd).inode = some c)

theorem Answers.not_leaks (h : a.clone = false ∨ a.client.isFound = false) : ¬a.Leaks := by
  rintro ⟨hclone, hfound, -⟩
  rcases h with h | h
  · rw [hclone] at h
    cases h
  · rw [hfound] at h
    cases h

theorem Answered.finds {found : Option (ClientIno × Bool)} (h : Answered s parent a x cd found)
    (halias : s.hasAlias a.client = true) :
    (a.client.isFound = false ∧ found = none) ∨
      ∃ c isDir, a.client.isFound = true ∧ found = some (c, isDir) ∧ Finds s a c cd := by
  cases h with
  | absent ha => exact Or.inl ⟨by rw [ha]; rfl, rfl⟩
  | found c isDir ha => exact Or.inr ⟨c, isDir, by rw [ha]; rfl, rfl, .new c isDir ha⟩
  | «alias» other isDir ha =>
    rw [ha] at halias
    simp only [Cache.hasAlias, Bool.and_eq_true, decide_eq_true_eq, Option.isSome_iff_exists] at halias
    obtain ⟨hlt, c, hc⟩ := halias
    exact Or.inr ⟨c, isDir, by rw [ha]; rfl, by simp [hlt.ne, hc], .old c cd isDir ha hlt hc⟩

theorem Answered.cd_le {found : Option (ClientIno × Bool)} (h : Answered s parent a x cd found)
    (halias : s.hasAlias a.client = true) : cd ≤ s.cdnext := by
  cases h with
  | absent _ => exact Nat.le_refl _
  | found c isDir _ => exact Nat.le_refl _
  | «alias» other isDir ha =>
    rw [ha] at halias
    simp only [Cache.hasAlias, Bool.and_eq_true, decide_eq_true_eq] at halias
    exact halias.1.le

/-- The client's lookup gives an inode to the new client dentry only. --/
theorem Answered.clients {found : Option (ClientIno × Bool)} (h : Answered s parent a x cd found) :
    (∀ k < s.cdnext, (x.clientDentry k).inode = (s.clientDentry k).inode) ∧
      (x.clientDentry cd).inode = found.map Prod.fst := by
  cases h with
  | absent _ =>
    refine ⟨fun k hk => ?_, by simp⟩
    simp [hk.ne]
  | found c isDir _ =>
    refine ⟨fun k hk => ?_, by simp⟩
    simp [hk.ne]
  | «alias» other isDir _ =>
    refine ⟨fun k hk => ?_, by simp [Function.comp_def]⟩
    rw [Cache.dput_clientDentry_inode, Cache.updClientDentry_clientDentry, Function.update_apply]
    split
    · rename_i hko
      subst hko
      simp [hk.ne]
    · simp [hk.ne]

/-- The new dentry of a lookup: without a client dentry, or with the one that was found. --/
inductive LookEntry (s t : Cache) (D : Dentry) : Prop
  | bare (hp : D.fsdata = none) (hh : D.hashed = false) (hi : D.inode = none)
  | twin (cd : Nat) (hp : D.fsdata = some ⟨some cd, some s.cdnext, true⟩) (hh : D.hashed = true) (hlt : cd < t.cdnext)
      (hi : D.inode = none ↔ (t.clientDentry cd).inode = none)
      (hnew : (t.clientDentry cd).inode = none → cd = s.cdnext)

theorem LookReturns.entry (h : LookReturns s parent a t) (halias : s.hasAlias a.client = true) :
    s.cdnext ≤ t.cdnext ∧ (∀ k < s.cdnext, (t.clientDentry k).inode = (s.clientDentry k).inode) ∧
      ∃ D, t.dentry = Function.update s.dentry s.dnext D ∧ D.freed = false ∧ LookEntry s t D := by
  cases h with
  | noClone _ _ =>
    refine ⟨by simp, fun k _ => by simp, { Cache.newEntry parent a none with inUse := true }, ?_, rfl, ?_⟩
    · simp [Cache.newEntry]
    · exact .bare rfl rfl rfl
  | fails _ _ _ _ =>
    refine ⟨by simp, fun k hk => by simp [hk.ne], Cache.newEntry parent a none, by simp [Cache.newEntry], rfl, ?_⟩
    exact .bare rfl rfl rfl
  | unfilled x y cd found _ _ hx hy =>
    cases hy with
    | leaked slot _ _ =>
      refine ⟨by simp [hx.clientOnly.cdnext], fun k hk => by simp [hx.clients.1 k hk], Cache.newEntry parent a none, ?_,
        rfl, .bare rfl rfl rfl⟩
      simp [hx.clientOnly.dentry, Cache.newEntry]
  | filled x y cd found _ _ hx hy =>
    have hfinds := hx.finds halias
    cases hy with
    | empty hnone =>
      have hcd : cd = s.cdnext := by
        cases hx with
        | absent _ => rfl
        | found _ _ _ => cases hnone
        | «alias» other isDir ha =>
          rcases hfinds with ⟨hf, -⟩ | ⟨_, _, -, hf, -⟩
          · rw [ha] at hf
            cases hf
          · rw [hnone] at hf
            cases hf
      refine ⟨by simp [hx.clientOnly.cdnext], fun k hk => by simp [hx.clients.1 k hk],
        { Cache.newEntry parent a (some ⟨some cd, some s.cdnext, true⟩) with inUse := true, hashed := true }, ?_, rfl, ?_⟩
      · simp [hx.clientOnly.dentry, Cache.newEntry]
      · refine .twin cd rfl rfl (by simp [hx.clientOnly.cdnext, hcd]) ?_ fun _ => hcd
        simp [Cache.newEntry, hx.clients.2, hnone]
    | started slot c isDir chunkId hf _ _ =>
      have hle := hx.cd_le halias
      refine ⟨by simp [hx.clientOnly.cdnext], fun k hk => by simp [hx.clients.1 k hk],
        { Cache.newEntry parent a (some ⟨some cd, some s.cdnext, true⟩) with
          inode := some s.inext, inUse := true, hashed := true }, ?_, rfl, ?_⟩
      · simp [hx.clientOnly.dentry, hx.clientOnly.inext, Cache.newEntry]
      · refine .twin cd rfl rfl ?_ ?_ fun hneg => ?_
        · simp [hx.clientOnly.cdnext]
          omega
        · simp [hx.clients.2, hf]
        · simp [hx.clients.2, hf] at hneg

theorem LookReturns.inodes (h : LookReturns s parent a t) (halias : s.hasAlias a.client = true) :
    ∃ D, t.dentry = Function.update s.dentry s.dnext D ∧ LookInodes s a D t := by
  cases h with
  | noClone _ hclone =>
    refine ⟨{ Cache.newEntry parent a none with inUse := true }, by simp [Cache.newEntry], ?_⟩
    exact .same rfl (by simp) (by simp) (Or.inl hclone)
  | fails e _ _ hc =>
    refine ⟨Cache.newEntry parent a none, by simp [Cache.newEntry], ?_⟩
    exact .same rfl (by simp) (by simp) (Or.inr (by rw [hc]; rfl))
  | unfilled x y cd found _ hclone hx hy =>
    refine ⟨Cache.newEntry parent a none, ?_⟩
    cases hy with
    | leaked slot hfound ha =>
      refine ⟨by simp [hx.clientOnly.dentry, Cache.newEntry], ?_⟩
      refine .leaked slot rfl (by simp [hx.clientOnly.inode, hx.clientOnly.inext]) (by simp [hx.clientOnly.inext]) ?_
      rcases hx.finds halias with ⟨-, hnone⟩ | ⟨c, isDir, hf, -, -⟩
      · exact absurd hnone hfound
      · exact ⟨hclone.1, hf, ha.imp (fun hb => ⟨slot, hb⟩) And.right⟩
  | filled x y cd found _ hclone hx hy =>
    cases hy with
    | empty hnone =>
      refine ⟨{ Cache.newEntry parent a (some ⟨some cd, some s.cdnext, true⟩) with inUse := true, hashed := true },
        by simp [hx.clientOnly.dentry, Cache.newEntry], ?_⟩
      refine .same rfl (by simp [hx.clientOnly.inode]) (by simp [hx.clientOnly.inext]) ?_
      rcases hx.finds halias with ⟨hf, -⟩ | ⟨c, isDir, -, hf, -⟩
      · exact Or.inr hf
      · rw [hnone] at hf
        cases hf
    | started slot c isDir chunkId hf hgood hcont =>
      refine ⟨{ Cache.newEntry parent a (some ⟨some cd, some s.cdnext, true⟩) with
        inode := some s.inext, inUse := true, hashed := true },
        by simp [hx.clientOnly.dentry, hx.clientOnly.inext, Cache.newEntry], ?_⟩
      have hfinds : Finds s a c cd := by
        rcases hx.finds halias with ⟨-, hnone⟩ | ⟨c', isDir', -, hf', hfinds⟩
        · rw [hf] at hnone
          cases hnone
        · rw [hf] at hf'
          cases hf'
          exact hfinds
      refine .started c cd chunkId isDir rfl rfl ?_ (by simp [hx.clientOnly.inext]) ⟨hclone.1, ⟨slot, hgood⟩, hcont⟩ hfinds
        (by simp [hx.clients.2, hf])
      have hxn : x.inext = s.inext := hx.clientOnly.inext
      simp [hx.clientOnly.inode, (hx.clientOnly.attrs c).1]
      rw [hxn]

/-- The new dentry of a lookup with its inode. --/
theorem LookReturns.fills (h : LookReturns s parent a t) (halias : s.hasAlias a.client = true) :
    ∃ D, t.dentry = Function.update s.dentry s.dnext D ∧ LookEntry s t D ∧ LookInodes s a D t := by
  obtain ⟨-, -, D, hD, -, hentry⟩ := h.entry halias
  obtain ⟨D', hD', hinodes⟩ := h.inodes halias
  have hDD : D' = D := by simpa using congrFun (hD'.symm.trans hD) s.dnext
  exact ⟨D, hD, hentry, hDD ▸ hinodes⟩

/-- A lookup changes no attributes. --/
theorem LookReturns.attrs (h : LookReturns s parent a t) : t.edition = s.edition ∧
    ∀ c, (t.client c).attrs = (s.client c).attrs ∧ (t.client c).last = (s.client c).last := by
  cases h with
  | noClone _ _ => exact ⟨by simp, fun c => by simp⟩
  | fails _ _ _ _ => exact ⟨by simp, fun c => by simp⟩
  | unfilled x y cd found _ _ hx hy =>
    cases hy with
    | leaked slot _ _ => exact ⟨by simp [hx.clientOnly.edition], fun c => by simp [hx.clientOnly.attrs c]⟩
  | filled x y cd found _ _ hx hy =>
    cases hy with
    | empty _ => exact ⟨by simp [hx.clientOnly.edition], fun c => by simp [hx.clientOnly.attrs c]⟩
    | started slot c' isDir chunkId _ _ _ =>
      exact ⟨by simp [hx.clientOnly.edition], fun c => by simp [hx.clientOnly.attrs c]⟩

/-! ### Runs -/

/-- In a cache that is left by calls that returned. --/
def InCache (P : Cache → Prop) (x : Except Fault Cache) : Prop := ∀ s, x = .ok s → P s

/-- Of a call that the VFS makes. --/
def OfCall (R : Cache → Event → Prop) (x : Except Fault Cache) (e : Event) : Prop :=
  ∀ s, x = .ok s → s.allows e = true → R s e

/-- The call does not return, or is not one of these. --/
def Avoids (bad : Cache → Event → Prop) (x : Except Fault Cache) (e : Event) : Prop :=
  ∀ s t, x = .ok s → step x e = some (.ok t) → ¬bad s e

section Rule
variable {P I : Cache → Prop} {R bad : Cache → Event → Prop} {es : List Event}

/-- Where an invariant is kept by every call but some, and these break what is wanted, the runs in which it holds
    all along are those without such calls. --/
theorem always_iff_avoids (hI : ∀ s, I s → P s) (hR : ∀ s e, I s → s.allows e = true → R s e)
    (hkeep : ∀ s e t, I s → s.allows e = true → e.Returns s t → ¬bad s e → I t)
    (hbad : ∀ s e t, I s → s.allows e = true → e.Returns s t → bad s e → ¬P t) (hs : I s)
    (hrun : (Run.run step (.ok s) es).isSome) :
    Run.Always step (InCache P) (OfCall R) (.ok s) es ↔ Run.Each step (Avoids bad) (.ok s) es := by
  have hall : ∀ x, InCache I x → InCache P x := fun x hx s hs => hI s (hx s hs)
  refine Run.always_iff_each (I := InCache I) hall ?_ ?_ ?_ hrun
  · intro x e hx hq
    refine ⟨fun s hs hallows => hR s e (hx s hs) hallows, fun y hy t ht => ?_⟩
    subst ht
    obtain ⟨s, rfl, hallows, hret⟩ := step_ok hy
    exact hkeep s e t (hx s rfl) hallows hret (hq s t rfl hy)
  · rintro x e y hx hy - hp s t rfl hst hb
    rw [hst] at hy
    cases hy
    obtain ⟨s', hs', hallows, hret⟩ := step_ok hst
    cases hs'
    exact hbad s e t (hx s rfl) hallows hret hb (hp t rfl)
  · intro s' hs'
    cases hs'
    exact hs

end Rule

end Dcache
end Chunkfs
