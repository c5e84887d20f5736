import Chunkfs.Vfs

/-! What an operation on dentries has done when it returns: the state it leaves, told by the answers it was
    given. -/

namespace Chunkfs
namespace Dcache
variable {s t : Cache} {d i cd : Nat} {c : ClientIno} {p : Priv} {e : Errno}

/-! ### Reading -/

theorem inodeOf_ok : inodeOf d s = .ok i t ↔ (s.dentry d).inode = some i ∧ t = s := by
  unfold inodeOf
  rw [Exec.bind_apply, Exec.get_apply]
  cases hi : (s.dentry d).inode <;> simp [hi, eq_comm]

theorem dirOf_ok : dirOf d s = .ok i t ↔ (s.dentry (s.dentry d).parent).inode = some i ∧ t = s := by
  unfold dirOf
  rw [Exec.bind_apply, Exec.get_apply]
  exact inodeOf_ok

theorem getClientInode_ok :
    getClientInode i s = .ok c t ↔ (s.inode i).count ≠ 0 ∧ (s.inode i).client = .set c ∧ t = s := by
  unfold getClientInode
  rw [Exec.bind_apply, Exec.get_apply]
  by_cases hc : (s.inode i).count = 0
  · simp [hc, Exec.bind_apply]
  · cases hp : (s.inode i).client <;> simp [hc, hp, eq_comm]

theorem chunkfsD_ok : chunkfsD d s = .ok p t ↔ (s.dentry d).fsdata = some p ∧ t = s := by
  unfold chunkfsD
  rw [Exec.bind_apply, Exec.get_apply]
  cases hp : (s.dentry d).fsdata <;> simp [hp, eq_comm]

theorem getClientDentry_ok {r : Option Nat} :
    getClientDentry d s = .ok r t ↔ ∃ p, (s.dentry d).fsdata = some p ∧ p.clientDentry = r ∧ t = s := by
  unfold getClientDentry
  rw [Exec.bind_eq_ok]
  simp [chunkfsD_ok, eq_comm, and_assoc]

/-! ### Inodes -/

theorem newInode_ok {a : NewInode} {r : Except Errno Nat} (h : newInode a s = .ok r t) :
    ∃ slot, t = s.addInode slot ∧ (a = .bad slot ∧ r = .error .eio ∨ a = .good slot ∧ r = .ok s.inext) := by
  unfold newInode at h
  rw [Exec.bind_apply, Exec.get_apply] at h
  cases a with
  | null => cases h
  | bad slot =>
    cases h
    exact ⟨slot, rfl, Or.inl ⟨rfl, rfl⟩⟩
  | good slot =>
    cases h
    exact ⟨slot, rfl, Or.inr ⟨rfl, rfl⟩⟩

/-- What `chunkfs_clear_inode` does to the client inodes. --/
def Cache.clear (s : Cache) (i : Nat) : Cache :=
  match (s.inode i).client with
  | .set c => s.updClient c fun x => { x with count := x.count - 1 }
  | .unset (.stale c) => s.updClient c fun x => { x with count := x.count - 1 }
  | .unset _ => s

/-- What `iput` leaves. --/
def Cache.put (s : Cache) (i : Nat) : Cache :=
  if (s.inode i).count = 1 then (s.updInode i fun x => { x with count := x.count - 1 }).clear i
  else s.updInode i fun x => { x with count := x.count - 1 }

theorem clearInode_ok {u : Unit} (h : clearInode i s = .ok u t) : t = s.clear i := by
  unfold clearInode at h
  rw [Exec.bind_apply, Exec.get_apply] at h
  unfold Cache.clear
  cases hp : (s.inode i).client with
  | set c => simpa [hp, iputClient, eq_comm] using h
  | unset slot =>
    cases slot with
    | null => simpa [hp, eq_comm] using h
    | stale c => simpa [hp, iputClient, eq_comm] using h
    | wild => simp [hp] at h

theorem iput_ok {u : Unit} (h : iput i s = .ok u t) : (s.inode i).count ≠ 0 ∧ t = s.put i := by
  unfold iput at h
  rw [Exec.bind_apply, Exec.get_apply] at h
  by_cases hz : (s.inode i).count = 0
  · simp [hz, Exec.bind_apply] at h
  · refine ⟨hz, ?_⟩
    unfold Cache.put
    by_cases hone : (s.inode i).count = 1
    · rw [if_pos hone]
      simp [hone, Exec.bind_apply] at h
      exact clearInode_ok h
    · rw [if_neg hone]
      simpa [hz, hone, Exec.bind_apply, eq_comm] using h

namespace Cache

/-- `iput` touches counts only. --/
theorem clear_eq (s : Cache) (i : Nat) : ∃ f, s.clear i = { s with client := f } ∧
    ∀ c, (f c).count ≤ (s.client c).count ∧ (f c).attrs = (s.client c).attrs ∧ (f c).last = (s.client c).last := by
  have hdec : ∀ c, ∃ f, (s.updClient c fun x => { x with count := x.count - 1 }) = { s with client := f } ∧
      ∀ c, (f c).count ≤ (s.client c).count ∧ (f c).attrs = (s.client c).attrs ∧ (f c).last = (s.client c).last := by
    intro c
    refine ⟨_, rfl, fun c' => ?_⟩
    rw [Function.update_apply]
    split
    · rename_i hc
      subst hc
      exact ⟨Int.sub_le_self _ (by decide), rfl, rfl⟩
    · exact ⟨Int.le_refl _, rfl, rfl⟩
  unfold clear
  split
  · exact hdec _
  · exact hdec _
  · exact ⟨s.client, rfl, fun c => ⟨Int.le_refl _, rfl, rfl⟩⟩

theorem put_eq (s : Cache) (i : Nat) : ∃ f,
    s.put i = { s.updInode i fun x => { x with count := x.count - 1 } with client := f } ∧
    ∀ c, (f c).count ≤ (s.client c).count ∧ (f c).attrs = (s.client c).attrs ∧ (f c).last = (s.client c).last := by
  unfold put
  split
  · exact clear_eq _ i
  · exact ⟨s.client, rfl, fun c => ⟨Int.le_refl _, rfl, rfl⟩⟩

section Put
variable (s : Cache) (i : Nat) (c : ClientIno)

@[simp] theorem put_dentry : (s.put i).dentry = s.dentry := by
  obtain ⟨f, hf, -⟩ := s.put_eq i
  rw [hf]
  rfl

@[simp] theorem put_dnext : (s.put i).dnext = s.dnext := by
  obtain ⟨f, hf, -⟩ := s.put_eq i
  rw [hf]
  rfl

@[simp] theorem put_clientDentry : (s.put i).clientDentry = s.clientDentry := by
  obtain ⟨f, hf, -⟩ := s.put_eq i
  rw [hf]
  rfl

@[simp] theorem put_cdnext : (s.put i).cdnext = s.cdnext := by
  obtain ⟨f, hf, -⟩ := s.put_eq i
  rw [hf]
  rfl

@[simp] theorem put_inext : (s.put i).inext = s.inext := by
  obtain ⟨f, hf, -⟩ := s.put_eq i
  rw [hf]
  rfl

@[simp] theorem put_inode : (s.put i).inode =
    Function.update s.inode i { s.inode i with count := (s.inode i).count - 1 } := by
  obtain ⟨f, hf, -⟩ := s.put_eq i
  rw [hf]
  rfl

@[simp] theorem put_edition : (s.put i).edition = s.edition := by
  obtain ⟨f, hf, -⟩ := s.put_eq i
  rw [hf]
  rfl

@[simp] theorem put_mnts : (s.put i).mnts = s.mnts := by
  obtain ⟨f, hf, -⟩ := s.put_eq i
  rw [hf]
  rfl

@[simp] theorem put_privs : (s.put i).privs = s.privs := by
  obtain ⟨f, hf, -⟩ := s.put_eq i
  rw [hf]
  rfl

@[simp] theorem put_nds : (s.put i).nds = s.nds := by
  obtain ⟨f, hf, -⟩ := s.put_eq i
  rw [hf]
  rfl

theorem put_client : ((s.put i).client c).count ≤ (s.client c).count ∧
    ((s.put i).client c).attrs = (s.client c).attrs ∧ ((s.put i).client c).last = (s.client c).last := by
  obtain ⟨f, hf, hc⟩ := s.put_eq i
  rw [hf]
  exact hc c

end Put

end Cache

/-! ### Making and linking -/

/-- A client dentry that gets an inode had none. --/
theorem instantiateClient_ok {r : Option Nat} {u : Unit} (h : instantiateClient r c s = .ok u t) :
    ∃ cd, r = some cd ∧ (s.clientDentry cd).inode = none ∧ t = s.attach cd c := by
  unfold instantiateClient at h
  cases r with
  | none => cases h
  | some cd =>
    refine ⟨cd, rfl, ?_⟩
    simp only [Exec.bind_apply, Exec.get_apply] at h
    cases hi : (s.clientDentry cd).inode with
    | some c' => simp [hi, Exec.bind_apply] at h
    | none => simpa [hi, attach, eq_comm] using h

theorem clientMake_ok {r : Option Nat} {answer out : Except Errno ClientIno} (h : clientMake r answer s = .ok out t) :
    (∃ e, answer = .error e ∧ out = .error e ∧ t = s) ∨
    ∃ c cd, answer = .ok c ∧ out = .ok c ∧ r = some cd ∧ (s.clientDentry cd).inode = none ∧
      t = (s.attach cd c).changeAttrs c := by
  unfold clientMake at h
  cases answer with
  | error e =>
    cases h
    exact Or.inl ⟨e, rfl, rfl, rfl⟩
  | ok c =>
    simp only [Exec.bind_eq_ok] at h
    obtain ⟨_, s₁, hinst, _, s₂, hattrs, hret⟩ := h
    obtain ⟨cd, hr, hneg, rfl⟩ := instantiateClient_ok hinst
    cases hattrs
    cases hret
    exact Or.inr ⟨c, cd, rfl, rfl, hr, hneg, rfl⟩

/-- What a creating operation was given: a directory in memory and private data. --/
structure MakeArgs (s : Cache) (d dir : Nat) (cdir : ClientIno) (p : Priv) : Prop where
  parent : (s.dentry (s.dentry d).parent).inode = some dir
  count : (s.inode dir).count ≠ 0
  client : (s.inode dir).client = .set cdir
  priv : (s.dentry d).fsdata = some p

/-- How a creating operation returns. --/
inductive MakeReturns (s : Cache) (d : Nat) (isDir : Bool) (a : MakeAnswers) (dir : Nat) (cdir : ClientIno) (p : Priv) :
    Cache → Prop
  | bad (slot : Slot) (hi : a.inode = .bad slot) : MakeReturns s d isDir a dir cdir p (s.addInode slot)
  | refused (slot : Slot) (e : Errno) (hi : a.inode = .good slot) (hc : a.client = .error e) :
      MakeReturns s d isDir a dir cdir p ((s.addInode slot).put s.inext)
  | unfinished (slot : Slot) (c : ClientIno) (cd : Nat) (e : Errno) (hi : a.inode = .good slot)
      (hc : a.client = .ok c) (hcd : p.clientDentry = some cd)
      (hneg : (s.clientDentry cd).inode = none) (he : a.cont = some e) :
      MakeReturns s d isDir a dir cdir p ((((s.addInode slot).attach cd c).changeAttrs c).put s.inext)
  | made (slot : Slot) (c : ClientIno) (cd chunkId : Nat) (hi : a.inode = .good slot) (hc : a.client = .ok c)
      (hcd : p.clientDentry = some cd)
      (hneg : (s.clientDentry cd).inode = none) (he : a.cont = none) :
      MakeReturns s d isDir a dir cdir p
        ((((((s.addInode slot).attach cd c).changeAttrs c).start s.inext c isDir chunkId).copyUp dir cdir).updDentry d
          fun x => { x with inode := some s.inext })

theorem copyDownNd_ok {nd : Bool} {depth : Nat} {u : Unit} (h : copyDownNd nd depth s = .ok u t) : t = s := by
  unfold copyDownNd at h
  split at h
  · cases h
  · cases h
    rfl

theorem makeNode_ok {isDir nd : Bool} {a : MakeAnswers} {r : Option Errno} (h : makeNode d isDir nd a s = .ok r t) :
    ∃ dir cdir p, MakeArgs s d dir cdir p ∧ MakeReturns s d isDir a dir cdir p t := by
  unfold makeNode at h
  simp only [Exec.bind_eq_ok, dirOf_ok, getClientInode_ok, getClientDentry_ok] at h
  obtain ⟨dir, s₁, ⟨hdir, rfl⟩, cdir, s₂, ⟨hcount, hclient, rfl⟩, cd?, s₃, ⟨p, hp, hcd, rfl⟩, s', s₄, hget, r', s₅, hnew,
    hrest⟩ := h
  cases hget
  refine ⟨dir, cdir, p, ⟨hdir, hcount, hclient, hp⟩, ?_⟩
  obtain ⟨slot, rfl, ⟨hi, rfl⟩ | ⟨hi, rfl⟩⟩ := newInode_ok hnew
  · cases hrest
    exact .bad slot hi
  simp only [Exec.bind_eq_ok] at hrest
  obtain ⟨_, s₆, hnd, r'', s₇, hmake, hrest⟩ := hrest
  obtain rfl := copyDownNd_ok hnd
  rcases clientMake_ok hmake with ⟨e, hc, rfl, rfl⟩ | ⟨c, cd, hc, rfl, rfl, hneg, rfl⟩
  · simp only [Exec.bind_eq_ok] at hrest
    obtain ⟨_, s₈, hput, hret⟩ := hrest
    cases hret
    obtain ⟨-, rfl⟩ := iput_ok hput
    exact .refused slot e hi hc
  cases he : a.cont with
  | some e =>
    simp only [he, Exec.bind_eq_ok] at hrest
    obtain ⟨_, s₈, hput, hret⟩ := hrest
    cases hret
    obtain ⟨-, rfl⟩ := iput_ok hput
    exact .unfinished slot c cd e hi hc hcd hneg he
  | none =>
    simp only [he] at hrest
    cases hrest
    exact .made slot c cd _ hi hc hcd hneg he

/-- How `chunkfs_link` returns. --/
inductive LinkReturns (s : Cache) (old new : Nat) (answer : Option Errno) : Cache → Prop
  | refused (e : Errno) (he : answer = some e) : LinkReturns s old new answer s
  | linked (dir i cdOld cdNew : Nat) (c cOld : ClientIno) (p q : Priv) (he : answer = none)
      (hdir : (s.dentry (s.dentry new).parent).inode = some dir) (hlive : (s.inode dir).count ≠ 0)
      (hi : (s.dentry old).inode = some i) (hcount : (s.inode i).count ≠ 0) (hclient : (s.inode i).client = .set cOld)
      (hp : (s.dentry old).fsdata = some p) (hold : p.clientDentry = some cdOld)
      (hc : (s.clientDentry cdOld).inode = some c) (hq : (s.dentry new).fsdata = some q)
      (hnew : q.clientDentry = some cdNew) (hneg : (s.clientDentry cdNew).inode = none) :
      LinkReturns s old new answer
        ((((s.attach cdNew c).copyUp i cOld).updInode dir fun x => { x with count := x.count + 1 }).updDentry new
          fun x => { x with inode := some i })

theorem clientLink_ok {old new : Option Nat} {u : Unit} (h : clientLink old new s = .ok u t) :
    ∃ cdOld cdNew c, old = some cdOld ∧ (s.clientDentry cdOld).inode = some c ∧ new = some cdNew ∧
      (s.clientDentry cdNew).inode = none ∧ t = s.attach cdNew c := by
  unfold clientLink at h
  cases old with
  | none => cases h
  | some cdOld =>
    simp only [Exec.bind_apply, Exec.get_apply] at h
    cases hi : (s.clientDentry cdOld).inode with
    | none => simp [hi] at h
    | some c =>
      simp only [hi] at h
      obtain ⟨cdNew, hnew, hneg, rfl⟩ := instantiateClient_ok h
      exact ⟨cdOld, cdNew, c, rfl, hi, hnew, hneg, rfl⟩

theorem link_ok {old new : Nat} {answer r : Option Errno} (h : link old new answer s = .ok r t) :
    LinkReturns s old new answer t := by
  unfold link at h
  simp only [Exec.bind_eq_ok, dirOf_ok, inodeOf_ok, getClientInode_ok, getClientDentry_ok] at h
  obtain ⟨dir, s₁, ⟨hdir, rfl⟩, cdir, s₂, ⟨hlive, -, rfl⟩, i, s₃, ⟨hi, rfl⟩, cOld, s₄, ⟨hcount, hclient, rfl⟩, _, s₅,
    ⟨p, hp, rfl, rfl⟩, _, s₆, ⟨q, hq, rfl, rfl⟩, hrest⟩ := h
  cases answer with
  | some e =>
    cases hrest
    exact .refused e rfl
  | none =>
    simp only [Exec.bind_eq_ok] at hrest
    obtain ⟨_, s₇, hlink, _, s₈, hcopy, _, s₉, hinc, _, s₁₀, hinst, hret⟩ := hrest
    obtain ⟨cdOld, cdNew, c, hold, hc, hnew, hneg, rfl⟩ := clientLink_ok hlink
    cases hcopy
    cases hinc
    cases hinst
    cases hret
    exact .linked dir i cdOld cdNew c cOld p q rfl hdir hlive hi hcount hclient hp hold hc hq hnew hneg

/-! ### Removing and releasing -/

/-- How a name is removed: the dentry is kept without its inode, or dropped as it is. --/
inductive RemoveReturns (s : Cache) (d : Nat) (answer : Option Errno) (keep : Bool) : Cache → Prop
  | refused (e : Errno) (he : answer = some e) : RemoveReturns s d answer keep s
  | removed (dir i : Nat) (cdir c : ClientIno) (p : Priv) (he : answer = none) (hcdir : (s.inode dir).client = .set cdir)
      (hi : (s.dentry d).inode = some i) (hp : (s.dentry d).fsdata = some p)
      (hc : (s.inode i).client = .set c ∨
        ∃ cd, p.clientDentry = some cd ∧ (s.clientDentry cd).inode = some c)
      (hcount : keep = true → (s.inode i).count ≠ 0) :
      RemoveReturns s d answer keep
        (if keep then (((s.copyUp dir cdir).copyUp i c).updDentry d fun x => { x with inode := none }).put i
        else ((s.copyUp dir cdir).copyUp i c).updDentry d fun x => { x with hashed := false })

theorem copyUp_count (s : Cache) (i : Nat) (c : ClientIno) (k : Nat) :
    ((s.copyUp i c).inode k).count = (s.inode k).count := by
  rw [Cache.copyUp_inode, Function.update_apply]
  split
  · rename_i hk
    rw [hk]
  · rfl

theorem start_count (s : Cache) (i : Nat) (c : ClientIno) (isDir : Bool) (chunkId k : Nat) :
    ((s.start i c isDir chunkId).inode k).count = (s.inode k).count := by
  rw [Cache.start_inode, Function.update_apply]
  split
  · rename_i hk
    rw [hk]
  · rfl

/-- The dentry after its name is gone. --/
theorem dDelete_ok {keep : Bool} {u : Unit} (h : dDelete d keep s = .ok u t) (hi : (s.dentry d).inode = some i) :
    (keep = true → (s.inode i).count ≠ 0) ∧
      t = if keep then (s.updDentry d fun x => { x with inode := none }).put i
        else s.updDentry d fun x => { x with hashed := false } := by
  unfold dDelete at h
  cases keep with
  | false =>
    cases h
    exact ⟨nofun, rfl⟩
  | true =>
    simp only [↓reduceIte, Exec.bind_eq_ok, inodeOf_ok] at h
    obtain ⟨j, s₁, ⟨hj, rfl⟩, _, s₂, hset, hput⟩ := h
    rw [hi] at hj
    cases hj
    cases hset
    obtain ⟨hcount, rfl⟩ := iput_ok hput
    exact ⟨fun _ => hcount, rfl⟩

theorem unlink_ok {answer : Option Errno} {keep : Bool} {u : Unit} (h : remove d keep (unlink d answer) s = .ok u t) :
    RemoveReturns s d answer keep t := by
  unfold remove unlink at h
  simp only [Exec.bind_eq_ok, dirOf_ok, inodeOf_ok, getClientInode_ok, getClientDentry_ok] at h
  obtain ⟨r', s₀, ⟨dir, s₁, ⟨hdir, rfl⟩, cdir, s₂, ⟨-, hcdir, rfl⟩, _, s₃, ⟨p, hp, -, rfl⟩, i, s₄, ⟨hi, rfl⟩, c, s₅,
    ⟨hcount, hc, rfl⟩, hop⟩, hdel⟩ := h
  cases answer with
  | some e =>
    cases hop
    cases hdel
    exact .refused e rfl
  | none =>
    cases hop
    obtain ⟨-, rfl⟩ := dDelete_ok hdel hi
    exact .removed dir i cdir c p rfl hcdir hi hp (Or.inl hc) fun _ => hcount

theorem rmdir_ok {answer : Option Errno} {keep : Bool} {u : Unit} (h : remove d keep (rmdir d answer) s = .ok u t) :
    RemoveReturns s d answer keep t := by
  unfold remove rmdir at h
  simp only [Exec.bind_eq_ok, dirOf_ok, inodeOf_ok, getClientInode_ok, getClientDentry_ok] at h
  obtain ⟨r', s₀, ⟨dir, s₁, ⟨hdir, rfl⟩, cdir, s₂, ⟨-, hcdir, rfl⟩, _, s₃, ⟨p, hp, rfl, rfl⟩, i, s₄, ⟨hi, rfl⟩, hop⟩,
    hdel⟩ := h
  cases answer with
  | some e =>
    cases hop
    cases hdel
    exact .refused e rfl
  | none =>
    simp only [Exec.bind_eq_ok] at hop
    obtain ⟨_, s₅, hcopy, hop⟩ := hop
    cases hcopy
    cases hcd : p.clientDentry with
    | none =>
      rw [hcd] at hop
      cases hop
    | some cd =>
      rw [hcd] at hop
      simp only [Exec.bind_eq_ok] at hop
      obtain ⟨s', s₆, hget, hop⟩ := hop
      cases hget
      cases hc : (s₄.clientDentry cd).inode with
      | none => simp [hc] at hop
      | some c =>
        simp only [Cache.copyUp_clientDentry, hc] at hop
        cases hop
        obtain ⟨hcount, rfl⟩ := dDelete_ok hdel hi
        refine .removed dir i cdir c p rfl hcdir hi hp (Or.inr ⟨cd, hcd, hc⟩) fun hk => ?_
        have := hcount hk
        rwa [copyUp_count, copyUp_count] at this

def Cache.dput (s : Cache) : Option Nat → Cache
  | none => s
  | some cd => s.updClientDentry cd fun x => { x with count := x.count - 1 }

theorem dput_eq (o : Option Nat) (s : Cache) : dput o s = .ok ⟨⟩ (s.dput o) := by
  cases o <;> rfl

/-- The private data of a dentry is given back with what it holds. --/
def Cache.freePriv (s : Cache) (d : Nat) (p : Priv) : Cache :=
  ((((s.dput p.ndDentry).addMnts (if p.ndMnt then -1 else 0)).dput p.clientDentry).addPrivs (-1)).updDentry d
    fun x => { x with fsdata := none }

theorem Cache.dput_dentry (s : Cache) (o : Option Nat) : (s.dput o).dentry = s.dentry := by
  cases o <;> rfl

theorem addMnts_zero (s : Cache) : s.addMnts 0 = s := by
  cases s
  simp [Cache.addMnts]

theorem releaseNd_eq (hp : (s.dentry d).fsdata = some p) :
    releaseNd d s = .ok ⟨⟩ ((s.dput p.ndDentry).addMnts (if p.ndMnt then -1 else 0)) := by
  unfold releaseNd
  rw [Exec.bind_ok (chunkfsD_ok.mpr ⟨hp, rfl⟩), Exec.bind_ok (dput_eq _ _)]
  cases p.ndMnt with
  | true => rfl
  | false => exact congrArg _ (addMnts_zero _).symm

theorem removeDentry_eq (hp : (s.dentry d).fsdata = some p) : removeDentry d s = .ok ⟨⟩ (s.dput p.clientDentry) := by
  unfold removeDentry
  rw [Exec.bind_ok (chunkfsD_ok.mpr ⟨hp, rfl⟩)]
  exact dput_eq _ _

theorem freeDentry_eq (hp : (s.dentry d).fsdata = some p) :
    freeDentry d s = .ok ⟨⟩ ((s.addPrivs (-1)).updDentry d fun x => { x with fsdata := none }) := by
  unfold freeDentry
  rw [Exec.bind_ok (chunkfsD_ok.mpr ⟨hp, rfl⟩)]
  rfl

theorem releaseDentry_eq (hp : (s.dentry d).fsdata = some p) : releaseDentry d s = .ok ⟨⟩ (s.freePriv d p) := by
  unfold releaseDentry
  rw [Exec.bind_ok (releaseNd_eq hp), Exec.bind_ok (removeDentry_eq (by simpa [Cache.dput_dentry] using hp)),
    freeDentry_eq (by simpa [Cache.dput_dentry] using hp)]
  rfl

theorem chunkfsD_none (hp : (s.dentry d).fsdata = none) : chunkfsD d s = .error .noPriv s := by
  unfold chunkfsD
  rw [Exec.bind_apply, Exec.get_apply]
  simp [hp]

theorem releaseDentry_none (hp : (s.dentry d).fsdata = none) : releaseDentry d s = .error .noPriv s := by
  unfold releaseDentry releaseNd
  rw [Exec.bind_error (Exec.bind_error (chunkfsD_none hp))]

/-- The dentry loses its inode. --/
def Cache.forget (s : Cache) (d : Nat) : Option Nat → Cache
  | none => s
  | some i => (s.updDentry d fun x => { x with inode := none }).put i

/-- How a dentry is released. --/
inductive KillReturns (s : Cache) (d : Nat) : Cache → Prop
  | plain (hi : ∀ i, (s.dentry d).inode = some i → (s.inode i).count ≠ 0) (hd : (s.dentry d).dops = false) :
      KillReturns s d
        ((s.forget d (s.dentry d).inode).updDentry d fun x => { x with hashed := false, freed := true })
  | priv (p : Priv) (hi : ∀ i, (s.dentry d).inode = some i → (s.inode i).count ≠ 0)
      (hd : (s.dentry d).dops = true) (hp : (s.dentry d).fsdata = some p) :
      KillReturns s d
        (((s.forget d (s.dentry d).inode).freePriv d p).updDentry d fun x => { x with hashed := false, freed := true })

theorem dentryIput_ok {u : Unit} (h : dentryIput d s = .ok u t) :
    (∀ i, (s.dentry d).inode = some i → (s.inode i).count ≠ 0) ∧ t = s.forget d (s.dentry d).inode := by
  unfold dentryIput at h
  rw [Exec.bind_apply, Exec.get_apply] at h
  cases hi : (s.dentry d).inode with
  | none =>
    simp only [hi] at h
    cases h
    exact ⟨nofun, rfl⟩
  | some i =>
    simp only [hi, Exec.bind_eq_ok] at h
    obtain ⟨_, s₁, hset, hput⟩ := h
    cases hset
    obtain ⟨hcount, rfl⟩ := iput_ok hput
    refine ⟨fun j hj => ?_, rfl⟩
    cases hj
    exact hcount

theorem forget_dentry (o : Option Nat) : ((s.forget d o).dentry d).dops = (s.dentry d).dops ∧
    ((s.forget d o).dentry d).fsdata = (s.dentry d).fsdata := by
  unfold Cache.forget
  split <;> simp

theorem dKill_ok {u : Unit} (h : dKill d s = .ok u t) : KillReturns s d t := by
  unfold dKill at h
  simp only [Exec.bind_eq_ok] at h
  obtain ⟨_, s₁, hforget, _, s₂, hrel, hset⟩ := h
  obtain ⟨hcount, rfl⟩ := dentryIput_ok hforget
  cases hset
  obtain ⟨hdops, hfsdata⟩ := forget_dentry (s := s) (d := d) (s.dentry d).inode
  unfold dRelease at hrel
  rw [Exec.bind_apply, Exec.get_apply] at hrel
  cases hd : (s.dentry d).dops with
  | false =>
    simp only [hdops, hd] at hrel
    cases hrel
    exact .plain hcount hd
  | true =>
    simp only [hdops, hd, ↓reduceIte] at hrel
    cases hp : (s.dentry d).fsdata with
    | none =>
      rw [releaseDentry_none (hfsdata.trans hp)] at hrel
      cases hrel
    | some p =>
      rw [releaseDentry_eq (hfsdata.trans hp)] at hrel
      cases hrel
      exact .priv p hcount hd hp

/-! ### Looking up -/

section Lookup
variable {parent : Nat} {a : Answers} {x : Cache}

/-- A new dentry with private data. --/
def Cache.inited (s : Cache) (parent : Nat) (a : Answers) : Cache :=
  ((s.addDentry parent a).addPrivs 1).updDentry s.dnext fun x =>
    { x with fsdata := some ⟨none, none, false⟩, dops := true }

/-- Its client dentry is made and the nameidata filled in. --/
def Cache.cloned (s : Cache) (parent : Nat) (a : Answers) : Cache :=
  (((s.inited parent a).addClientDentry.updClientDentry s.cdnext fun x => { x with count := x.count + 1 }).addMnts
    1).updDentry s.dnext fun x => { x with fsdata := some ⟨none, some s.cdnext, true⟩ }

/-- What the client's lookup leaves: the cache, the client dentry and its inode. --/
inductive Answered (s : Cache) (parent : Nat) (a : Answers) : Cache → Nat → Option (ClientIno × Bool) → Prop
  | absent (h : a.client = .absent) : Answered s parent a (s.cloned parent a) s.cdnext none
  | found (c : ClientIno) (isDir : Bool) (h : a.client = .found c isDir) :
      Answered s parent a ((s.cloned parent a).attach s.cdnext c) s.cdnext (some (c, isDir))
  | alias (other : Nat) (isDir : Bool) (h : a.client = .alias other isDir) :
      Answered s parent a
        (((s.cloned parent a).updClientDentry other fun x => { x with count := x.count + 1 }).dput (some s.cdnext)) other
        ((((s.cloned parent a).updClientDentry other fun x => { x with count := x.count + 1 }).dput
          (some s.cdnext)).clientDentry other |>.inode.map (·, isDir))

/-- How the dentry is filled in: without an inode, with a new one, or not. --/
inductive FillReturns (x : Cache) (d cd : Nat) (found : Option (ClientIno × Bool)) (a : Answers) (p : Priv) :
    Bool → Cache → Prop
  | empty (h : found = none) :
      FillReturns x d cd found a p true
        (x.updDentry d fun y => { y with fsdata := some { p with clientDentry := some cd }, hashed := true })
  | leaked (slot : Slot) (h : found ≠ none) (ha : a.inode = .bad slot ∨ a.inode = .good slot ∧ a.cont ≠ none) :
      FillReturns x d cd found a p false (((x.addInode slot).dput (some cd)).freePriv d p)
  | started (slot : Slot) (c : ClientIno) (isDir : Bool) (chunkId : Nat) (h : found = some (c, isDir))
      (ha : a.inode = .good slot) (hc : a.cont = none) :
      FillReturns x d cd found a p true
        (((x.addInode slot).start x.inext c isDir chunkId).updDentry d fun y =>
          { y with fsdata := some { p with clientDentry := some cd }, inode := some x.inext, hashed := true })

theorem outDput_eq (hp : (x.dentry d).fsdata = some p) (cd : Nat) (e : Errno) :
    outDput d cd e x = .ok (.error e) ((x.dput (some cd)).freePriv d p) := by
  have hp' : ((x.dput (some cd)).dentry d).fsdata = some p := hp
  unfold outDput
  rw [Exec.bind_ok (dput_eq (some cd) x), Exec.bind_ok (releaseNd_eq hp'),
    Exec.bind_ok (removeDentry_eq (by simpa [Cache.dput_dentry] using hp)),
    Exec.bind_ok (freeDentry_eq (by simpa [Cache.dput_dentry] using hp))]
  rfl

theorem addDentry_eq (hp : (x.dentry d).fsdata = some p) (cd : Nat) :
    addDentry d cd x = .ok ⟨⟩ (x.updDentry d fun y => { y with fsdata := some { p with clientDentry := some cd } }) := by
  unfold addDentry
  rw [Exec.bind_ok (chunkfsD_ok.mpr ⟨hp, rfl⟩)]
  rfl

theorem updDentry_updDentry (x : Cache) (d : Nat) (f g : Dentry → Dentry) :
    (x.updDentry d f).updDentry d g = x.updDentry d fun y => g (f y) := by
  simp [Cache.updDentry]

theorem fillDentry_ok {cd chunkId : Nat} {found : Option (ClientIno × Bool)} {r : Except Errno Unit}
    (h : fillDentry d cd found chunkId a x = .ok r t) (hp : (x.dentry d).fsdata = some p) :
    FillReturns x d cd found a p r.toBool t := by
  unfold fillDentry at h
  cases found with
  | none =>
    simp only [Exec.bind_eq_ok] at h
    obtain ⟨_, s₁, hadd, _, s₂, hset, hret⟩ := h
    rw [addDentry_eq hp] at hadd
    cases hadd
    cases hset
    cases hret
    dsimp only
    rw [updDentry_updDentry]
    exact .empty rfl
  | some f =>
    obtain ⟨c, isDir⟩ := f
    simp only [Exec.bind_eq_ok] at h
    obtain ⟨r', s₁, hnew, hrest⟩ := h
    obtain ⟨slot, rfl, ⟨hi, rfl⟩ | ⟨hi, rfl⟩⟩ := newInode_ok hnew
    · dsimp only at hrest
      rw [outDput_eq (show ((x.addInode slot).dentry d).fsdata = some p from hp)] at hrest
      cases hrest
      exact .leaked slot (Option.some_ne_none _) (Or.inl hi)
    · cases hc : a.cont with
      | some e =>
        simp only [hc] at hrest
        rw [outDput_eq (show ((x.addInode slot).dentry d).fsdata = some p from hp)] at hrest
        cases hrest
        exact .leaked slot (Option.some_ne_none _) (Or.inr ⟨hi, by rw [hc]; exact Option.some_ne_none e⟩)
      | none =>
        simp only [hc, Exec.bind_eq_ok] at hrest
        obtain ⟨_, s₂, hstart, _, s₃, hadd, _, s₄, hset, hret⟩ := hrest
        cases hstart
        rw [addDentry_eq (show (((x.addInode slot).start x.inext c isDir chunkId).dentry d).fsdata = some p from hp)]
          at hadd
        cases hadd
        cases hset
        cases hret
        dsimp only
        rw [updDentry_updDentry]
        exact .started slot c isDir chunkId rfl hi hc

/-- How the lookup of a new dentry returns. --/
inductive LookReturns (s : Cache) (parent : Nat) (a : Answers) : Cache → Prop
  | noClone (hpriv : a.priv = true ∧ a.nd = true) (h : a.clone = false) :
      LookReturns s parent a
        (((s.inited parent a).freePriv s.dnext ⟨none, none, false⟩).updDentry s.dnext fun y => { y with inUse := true })
  | fails (e : Errno) (hpriv : a.priv = true ∧ a.nd = true) (h : a.clone = true ∧ a.chunk = true)
      (hc : a.client = .fails e) :
      LookReturns s parent a
        (((s.cloned parent a).dput (some s.cdnext)).freePriv s.dnext ⟨none, some s.cdnext, true⟩)
  | unfilled (x y : Cache) (cd : Nat) (found : Option (ClientIno × Bool)) (hpriv : a.priv = true ∧ a.nd = true)
      (h : a.clone = true ∧ a.chunk = true) (hx : Answered s parent a x cd found)
      (hy : FillReturns x s.dnext cd found a ⟨none, some s.cdnext, true⟩ false y) : LookReturns s parent a y
  | filled (x y : Cache) (cd : Nat) (found : Option (ClientIno × Bool)) (hpriv : a.priv = true ∧ a.nd = true)
      (h : a.clone = true ∧ a.chunk = true) (hx : Answered s parent a x cd found)
      (hy : FillReturns x s.dnext cd found a ⟨none, some s.cdnext, true⟩ true y) :
      LookReturns s parent a (y.updDentry s.dnext fun z => { z with inUse := true })

theorem initDentry_ok {r : Bool} (h : initDentry d a s = .ok r t) (hp : (s.dentry d).fsdata = none) :
    (r = false ∧ t = s ∧ (a.priv = false ∨ a.nd = false)) ∨
    (r = true ∧ a.priv = true ∧ a.nd = true ∧ t = (s.addPrivs 1).updDentry d fun x =>
      { x with fsdata := some ⟨none, none, false⟩, dops := true }) := by
  unfold initDentry at h
  rw [Exec.bind_apply, Exec.get_apply] at h
  cases hpriv : a.priv <;> cases hnd : a.nd <;> simp [hp, hpriv, hnd, Exec.bind_apply, eq_comm] at h ⊢ <;> exact h

theorem cloneDentry_ok {works : Bool} {r : Option Nat} (h : cloneDentry d works s = .ok r t) :
    (works = false ∧ r = none ∧ t = s) ∨ (works = true ∧ r = some s.cdnext ∧ t = s.addClientDentry) := by
  unfold cloneDentry at h
  simp only [Exec.bind_eq_ok, getClientDentry_ok] at h
  obtain ⟨s', s₁, hget, o, s₂, ⟨p, -, -, rfl⟩, hrest⟩ := h
  cases hget
  cases o with
  | none => cases hrest
  | some _ =>
    cases works with
    | false =>
      cases hrest
      exact Or.inl ⟨rfl, rfl, rfl⟩
    | true =>
      cases hrest
      exact Or.inr ⟨rfl, rfl, rfl⟩

theorem initNd_ok {chunk : Bool} {u : Unit} (h : initNd d cd chunk s = .ok u t) (hp : (s.dentry d).fsdata = some p) :
    chunk = true ∧ t = ((s.updClientDentry cd fun x => { x with count := x.count + 1 }).addMnts 1).updDentry d fun x =>
      { x with fsdata := some { p with ndDentry := some cd, ndMnt := true } } := by
  unfold initNd at h
  rw [Exec.bind_ok (chunkfsD_ok.mpr ⟨hp, rfl⟩)] at h
  cases chunk with
  | false => cases h
  | true =>
    cases h
    exact ⟨rfl, rfl⟩

/-- What the VFS makes of the answer. --/
theorem lookReturns_of_fill {cd chunkId : Nat} {found : Option (ClientIno × Bool)} {r : Except Errno Unit} {y : Cache}
    {u : Unit} (hpriv : a.priv = true ∧ a.nd = true) (hclone : a.clone = true ∧ a.chunk = true)
    (hx : Answered s parent a x cd found) (hp : (x.dentry s.dnext).fsdata = some ⟨none, some s.cdnext, true⟩)
    (hfill : fillDentry s.dnext cd found chunkId a x = .ok r y)
    (hrest : (match r with
      | .error _ => (pure () : Dc Unit)
      | .ok () => modify fun z : Cache => z.updDentry s.dnext fun w => { w with inUse := true }) y = .ok u t) :
    LookReturns s parent a t := by
  have hy := fillDentry_ok hfill hp
  cases r with
  | error e =>
    cases hrest
    exact .unfilled x _ cd found hpriv hclone hx hy
  | ok v =>
    cases hrest
    exact .filled x _ cd found hpriv hclone hx hy

theorem lookupNew_ok {u : Unit} (h : lookupNew parent a s = .ok u t) :
    LookReturns s parent a t := by
  unfold lookupNew newDentry at h
  simp only [Exec.bind_eq_ok] at h
  obtain ⟨d, s₀, ⟨s', s'', hget, _, s₁, hset, hd⟩, r, s₂, hlook, hrest⟩ := h
  cases hget
  cases hset
  cases hd
  unfold lookup at hlook
  simp only [Exec.bind_eq_ok, dirOf_ok, getClientInode_ok] at hlook
  obtain ⟨dir, s₃, ⟨hdir, rfl⟩, cdir, s₄, ⟨hcount, hclient, rfl⟩, s₅, s₆, hget, inited, s₇, hinit, hlook⟩ := hlook
  cases hget
  have hnew : ((s.addDentry parent a).dentry s.dnext).fsdata = none := by simp
  rcases initDentry_ok hinit hnew with ⟨rfl, rfl, -⟩ | ⟨rfl, hpriv, hnd, hs₇⟩
  · simp only [Bool.not_false, ↓reduceIte, Exec.bind_eq_ok] at hlook
    obtain ⟨_, s₈, hfree, -⟩ := hlook
    unfold freeDentry at hfree
    rw [Exec.bind_error (chunkfsD_none hnew)] at hfree
    cases hfree
  replace hs₇ : s₇ = s.inited parent a := hs₇
  subst hs₇
  have hinited : ((s.inited parent a).dentry s.dnext).fsdata = some ⟨none, none, false⟩ := by simp [Cache.inited]
  simp only [Bool.not_true, Bool.false_eq_true, ↓reduceIte, Exec.bind_eq_ok] at hlook
  obtain ⟨o, s₈, hworks, hlook⟩ := hlook
  rcases cloneDentry_ok hworks with ⟨hclone, rfl, rfl⟩ | ⟨hclone, ho, rfl⟩
  · dsimp only at hlook
    rw [Exec.bind_ok (removeDentry_eq hinited)] at hlook
    change (freeDentry s.dnext >>= fun _ => pure (Except.ok ())) (s.inited parent a) = _ at hlook
    rw [Exec.bind_ok (freeDentry_eq hinited)] at hlook
    cases hlook
    cases hrest
    have hfree : (s.inited parent a).freePriv s.dnext ⟨none, none, false⟩ =
        ((s.inited parent a).addPrivs (-1)).updDentry s.dnext fun x => { x with fsdata := none } := by
      simp [Cache.freePriv, Cache.dput, addMnts_zero]
    rw [← hfree]
    exact .noClone ⟨hpriv, hnd⟩ hclone
  replace ho : o = some s.cdnext := ho
  subst ho
  simp only [Exec.bind_eq_ok] at hlook
  obtain ⟨_, s₉, hinit, hlook⟩ := hlook
  obtain ⟨hchunk, hs₉⟩ := initNd_ok hinit hinited
  replace hs₉ : s₉ = s.cloned parent a := hs₉
  subst hs₉
  have hcloned : ((s.cloned parent a).dentry s.dnext).fsdata = some ⟨none, some s.cdnext, true⟩ := by
    simp [Cache.cloned]
  cases hc : a.client with
  | fails e =>
    simp only [hc] at hlook
    rw [outDput_eq hcloned] at hlook
    cases hlook
    cases hrest
    exact .fails e ⟨hpriv, hnd⟩ ⟨hclone, hchunk⟩ hc
  | absent =>
    simp only [hc] at hlook
    exact lookReturns_of_fill ⟨hpriv, hnd⟩ ⟨hclone, hchunk⟩ (.absent hc) hcloned hlook hrest
  | found c isDir =>
    simp only [hc, Exec.bind_eq_ok] at hlook
    obtain ⟨_, s₁₀, hattach, hlook⟩ := hlook
    cases hattach
    exact lookReturns_of_fill ⟨hpriv, hnd⟩ ⟨hclone, hchunk⟩ (.found c isDir hc) hcloned hlook hrest
  | «alias» other isDir =>
    simp only [hc, Exec.bind_eq_ok] at hlook
    obtain ⟨_, s₁₀, hget, _, s₁₁, hput, s₁₂, s₁₃, hread, hlook⟩ := hlook
    cases hget
    cases hput
    cases hread
    exact lookReturns_of_fill ⟨hpriv, hnd⟩ ⟨hclone, hchunk⟩ (.alias other isDir hc) hcloned hlook hrest

end Lookup

/-! ### Attributes, and all together -/

/-- How `chunkfs_setattr` returns. --/
inductive SetattrReturns (s : Cache) (d : Nat) (answer : Option Errno) : Cache → Prop
  | refused (e : Errno) (he : answer = some e) : SetattrReturns s d answer s
  | changed (i cd : Nat) (c c' : ClientIno) (p : Priv) (he : answer = none) (hi : (s.dentry d).inode = some i)
      (hcount : (s.inode i).count ≠ 0) (hc : (s.inode i).client = .set c) (hp : (s.dentry d).fsdata = some p)
      (hcd : p.clientDentry = some cd) (hc' : (s.clientDentry cd).inode = some c') :
      SetattrReturns s d answer (((s.changeAttrs c').setLast c').copyUp i c)

theorem setattr_ok {answer r : Option Errno} (h : setattr d answer s = .ok r t) : SetattrReturns s d answer t := by
  unfold setattr at h
  simp only [Exec.bind_eq_ok, inodeOf_ok, getClientInode_ok, getClientDentry_ok] at h
  obtain ⟨i, s₁, ⟨hi, rfl⟩, c, s₂, ⟨hcount, hc, rfl⟩, _, s₃, ⟨p, hp, rfl, rfl⟩, hrest⟩ := h
  cases answer with
  | some e =>
    cases hrest
    exact .refused e rfl
  | none =>
    cases hcd : p.clientDentry with
    | none =>
      rw [hcd] at hrest
      cases hrest
    | some cd =>
      rw [hcd] at hrest
      simp only [Exec.bind_eq_ok] at hrest
      obtain ⟨s', s₄, hget, hrest⟩ := hrest
      cases hget
      cases hc' : (s₃.clientDentry cd).inode with
      | none => simp [hc'] at hrest
      | some c' =>
        simp only [hc'] at hrest
        cases hrest
        exact .changed i cd c c' p rfl hi hcount hc hp hcd hc'

theorem writeInode_ok {u : Unit} (h : writeInode i s = .ok u t) : ∃ c, (s.inode i).count ≠ 0 ∧
    (s.inode i).client = .set c ∧ t = s.updClient c fun x => { x with attrs := (s.inode i).attrs } := by
  unfold writeInode at h
  simp only [Exec.bind_eq_ok, getClientInode_ok] at h
  obtain ⟨c, s₁, ⟨hcount, hc, rfl⟩, hset⟩ := h
  cases hset
  exact ⟨c, hcount, hc, rfl⟩

/-- The state an event leaves when its operation returns. --/
def Event.Returns (s : Cache) : Event → Cache → Prop
  | .lookup parent a => LookReturns s parent a
  | .create d a => fun t => ∃ dir cdir p, MakeArgs s d dir cdir p ∧ MakeReturns s d false a dir cdir p t
  | .mkdir d a => fun t => ∃ dir cdir p, MakeArgs s d dir cdir p ∧ MakeReturns s d true a dir cdir p t
  | .symlink d a => fun t => ∃ dir cdir p, MakeArgs s d dir cdir p ∧ MakeReturns s d false a dir cdir p t
  | .mknod d a => fun t => ∃ dir cdir p, MakeArgs s d dir cdir p ∧ MakeReturns s d false a dir cdir p t
  | .link old new answer => LinkReturns s old new answer
  | .unlink d answer keep => RemoveReturns s d answer keep
  | .rmdir d answer keep => RemoveReturns s d answer keep
  | .release d => KillReturns s d
  | .setattr d answer => SetattrReturns s d answer
  | .writeInode i => fun t => ∃ c, (s.inode i).count ≠ 0 ∧ (s.inode i).client = .set c ∧
      t = s.updClient c fun x => { x with attrs := (s.inode i).attrs }

theorem ignore_ok {α : Type} {m : Dc α} {u : Unit} (h : (do let _ ← m) s = .ok u t) : ∃ r, m s = .ok r t := by
  simp only [Exec.bind_eq_ok] at h
  obtain ⟨r, s', hm, hret⟩ := h
  cases hret
  exact ⟨r, hm⟩

theorem exec_ok {e : Event} {u : Unit} (h : e.exec s = .ok u t) : e.Returns s t := by
  cases e with
  | lookup parent a => exact lookupNew_ok h
  | create d a | mkdir d a | symlink d a | mknod d a => exact makeNode_ok (ignore_ok h).choose_spec
  | link old new answer => exact link_ok (ignore_ok h).choose_spec
  | unlink d answer keep => exact unlink_ok h
  | rmdir d answer keep => exact rmdir_ok h
  | release d => exact dKill_ok h
  | setattr d answer => exact setattr_ok (ignore_ok h).choose_spec
  | writeInode i => exact writeInode_ok h

/-- What a step that returns has done. --/
theorem step_ok {x : Except Fault Cache} {e : Event} (h : step x e = some (.ok t)) :
    ∃ s, x = .ok s ∧ s.allows e = true ∧ e.Returns s t := by
  unfold step at h
  cases x with
  | error f => cases h
  | ok s =>
    simp only [Option.ite_none_right_eq_some] at h
    obtain ⟨hallows, h⟩ := h
    refine ⟨s, rfl, hallows, ?_⟩
    cases hexec : e.exec s with
    | ok u t' =>
      simp only [hexec] at h
      cases h
      exact exec_ok hexec
    | error f t' => simp [hexec] at h

end Dcache
end Chunkfs
