import Chunkfs.Theorems.Transfers
import Chunkfs.Theorems.System
import Chunkfs.Lib.Run

/-! Who may access a file. Every call on an open file copies the attributes of one client inode up to the chunkfs inode,
    and writing the inode copies them down to the head. -/

namespace Chunkfs
open Exec

/-- What decides who may access a file, and how many names it has. --/
structure Access where
  mode : Nat
  uid : Nat
  gid : Nat
  nlink : Nat
deriving DecidableEq

def Attrs.access (a : Attrs) : Access := ⟨a.mode, a.uid, a.gid, a.nlink⟩

/-- What a write leaves of it. --/
def Access.stripped (a : Access) (e : Env) : Access := { a with mode := e.writtenMode a.mode a.gid }

/-- The chunkfs inodes are as they were, and every client inode has the access it had. --/
structure SameAccess (w w' : World) : Prop where
  vnode : w'.vnode = w.vnode
  disk : ∀ c, (w'.disk.inode c).map (·.attrs.access) = (w.disk.inode c).map (·.attrs.access)
  env : w'.env = { w.env with script := w'.env.script }

instance : IsPreorder World SameAccess where
  refl _ := ⟨rfl, fun _ => rfl, rfl⟩
  trans _ _ _ h h' := ⟨h'.vnode.trans h.vnode, fun c => (h'.disk c).trans (h.disk c), by rw [h'.env, h.env]⟩

section Same
variable {w w' w'' : World} {c : ClientIno} {i : ClientInode}

theorem SameAccess.trans (h : SameAccess w w') (h' : SameAccess w' w'') : SameAccess w w'' := IsTrans.trans _ _ _ h h'

theorem SameAccess.symm (h : SameAccess w w') : SameAccess w' w :=
  ⟨h.vnode.symm, fun c => (h.disk c).symm, by rw [h.env]⟩

theorem SameAccess.inode (h : SameAccess w w') (hi : w.disk.inode c = some i) :
    ∃ i', w'.disk.inode c = some i' ∧ i'.attrs.access = i.attrs.access :=
  Option.map_eq_some_iff.mp ((h.disk c).trans (congrArg _ hi))

theorem Warm.sameAccess (h : Warm w w') : SameAccess w w' := ⟨h.vnode, fun _ => by rw [h.disk], h.env⟩

theorem still_sameAccess (h : Still w w') : SameAccess w w' := ⟨h.vnode, fun _ => by rw [h.disk], h.env⟩

theorem SameAccess.modify (w : World) (c : ClientIno) {f : ClientInode → ClientInode}
    (hf : ∀ i, (f i).attrs.access = i.attrs.access) : SameAccess w { w with disk := w.disk.modify c f } where
  vnode := rfl
  disk x := by
    by_cases hx : x = c
    · subst hx
      refine (congrArg _ (Disk.inode_modify_same ..)).trans ?_
      rw [Option.map_map]
      exact congrFun (congrArg Option.map (funext hf)) _
    · rw [Disk.inode_modify_of_ne hx]
  env := rfl

/-- Two inodes of one access have one without their set-ID bits, too. --/
theorem SameAccess.stripped (h : SameAccess w w') (c : ClientIno) : SameAccess (w.stripped c) (w'.stripped c) where
  vnode := h.vnode
  disk x := by
    by_cases hx : x = c
    · subst hx
      have hstrip (u : World) : ((u.stripped x).disk.inode x).map (·.attrs.access) =
          ((u.disk.inode x).map (·.attrs.access)).map fun a => a.stripped u.env := by
        refine (congrArg _ (Disk.inode_modify_same ..)).trans ?_
        rw [Option.map_map, Option.map_map]
        rfl
      rw [hstrip, hstrip, h.disk, h.env]
      rfl
    · exact (congrArg _ (Disk.inode_modify_of_ne hx)).trans ((h.disk x).trans
        (congrArg _ (Disk.inode_modify_of_ne hx).symm))
  env := h.env

theorem setContData_sameAccess {cd : ContData} {r : Except Errno Unit} (h : setContData c cd w = .ok r w') : SameAccess w w' :=
  (setContData_stays (R := SameAccess) (ask_still.mono fun _ _ h => still_sameAccess h)
    (fun w _ _ => .modify w c fun _ => rfl) cd).of_ok h

theorem writeData_access (i : ClientInode) (pos : Nat) (data : List UInt8) (now : Nat) :
    (i.writeData pos data now).attrs.access = i.attrs.access := by
  unfold ClientInode.writeData
  split <;> rfl

/-- A client stores bytes of `data` from `start` on. --/
def Env.Stores (e : Env) (data : List UInt8) (start : Int) : Prop :=
  data.take (e.transfer data.length) ≠ [] ∧ 0 ≤ start ∧ start + (data.take (e.transfer data.length)).length < 2 ^ 63

/-- A client's write leaves every access, or takes the set-ID bits where it has bytes to store. --/
theorem clientWrite_access {file : ClientFile} {data : List UInt8} {pos : Int} {t : Transfer}
    (hi : w.inode? file.inode = some i) (h : clientWrite file data pos w = .ok t w') :
    SameAccess w w' ∧ (Honest w → ¬w.env.Stores data (writeStart file i pos)) ∨
      SameAccess (w.stripped file.inode) w' ∧ w.env.Stores data (writeStart file i pos) := by
  unfold clientWrite at h
  obtain ⟨o, w₁, hask, h⟩ := bind_eq_ok.mp h
  have hw := ask_ok hask
  cases o with
  | some e =>
    cases h
    exact Or.inl ⟨hw.sameAccess, fun hh => nomatch (ask_reads hh).eq_of_ok hask⟩
  | none =>
    obtain ⟨s, w₂, hget, h⟩ := bind_eq_ok.mp h
    cases hget
    have ht : w₁.env.transfer data.length = w.env.transfer data.length := by
      rw [hw.env]
      rfl
    have hs : (if file.flags &&& oAppend = 0 then pos else (i.size : Int)) = writeStart file i pos := rfl
    simp only [hw.inode? hi, ht, hs] at h
    split at h
    · rename_i hneg
      cases h
      exact Or.inl ⟨hw.sameAccess, fun _ hst => Int.not_le.mpr hneg hst.2.1⟩
    · rename_i hneg
      split at h
      · rename_i hnil
        cases h
        exact Or.inl ⟨hw.sameAccess, fun _ hst => hst.1 hnil⟩
      · rename_i hne
        split at h
        · rename_i hbig
          cases h
          exact Or.inl ⟨hw.sameAccess, fun _ hst => Int.not_le.mpr hst.2.2 hbig⟩
        · rename_i hbig
          refine Or.inr ⟨?_, hne, Int.not_lt.mp hneg, Int.not_le.mp hbig⟩
          obtain ⟨_, w₂, hset, h⟩ := bind_eq_ok.mp h
          cases hset
          obtain ⟨o, w₃, hask, h⟩ := bind_eq_ok.mp h
          have hw₃ : SameAccess (w₁.stripped file.inode) w₃ := (ask_ok hask).sameAccess
          have hsame := (hw.sameAccess.stripped file.inode).trans hw₃
          cases o with
          | some e =>
            cases h
            exact hsame
          | none =>
            cases h
            exact hsame.trans (.modify w₃ file.inode fun i => writeData_access i _ _ _)

theorem clientRead_sameAccess (file : ClientFile) (len : Nat) (pos : Int) : Stays SameAccess (clientRead file len pos) := by
  refine (ask_still.mono fun _ _ h => still_sameAccess h).bind fun o => ?_
  cases o with
  | some e => exact .pure _
  | none =>
    refine .get_bind fun w => ?_
    cases w.inode? file.inode with
    | none => exact .pure _
    | some i => exact .ite (.pure _) (.pure _)

end Same

/-! ### What a call copies up -/

/-- The chunkfs inode `v` has got the access `a`, and every client inode has the access it had. --/
structure Copied (w : World) (v : Nat) (a : Access) (w' : World) : Prop where
  vnode : ∀ vn, w.vnode v = some vn → ∃ vn', w'.vnode v = some vn' ∧ vn'.client = vn.client ∧ vn'.attrs.access = a
  disk : ∀ c i, w.disk.inode c = some i → ∃ i', w'.disk.inode c = some i' ∧ i'.attrs.access = i.attrs.access

section Calls
variable {w w₁ w' : World} {d : Dentry} {vn : Vnode} {v : Nat} {p : Int} {file f : File} {r : IoResult} {c : ClientIno}
  {i : ClientInode} {a : Access}

theorem Copied.after (h : SameAccess w w₁) (h' : Copied w₁ v a w') : Copied w v a w' where
  vnode vn hv := h'.vnode vn (h.vnode ▸ hv)
  disk c i hi := by
    obtain ⟨i', hi', ha⟩ := h.inode hi
    obtain ⟨i'', hi'', ha'⟩ := h'.disk c i' hi'
    exact ⟨i'', hi'', ha'.trans ha⟩

theorem CopiedFrom.copied (h : CopiedFrom w v i w') : Copied w v i.attrs.access w' where
  vnode vn hv := by
    obtain ⟨total, hvnode⟩ := h.vnode
    refine ⟨{ vn with attrs := i.attrs, size := total }, ?_, rfl, rfl⟩
    rw [hvnode]
    dsimp only
    rw [if_pos rfl, hv]
    rfl
  disk c i hi := ⟨i, h.disk ▸ hi, rfl⟩

/-- Closing copies up the access that the client inode had when the client file was used. --/
theorem closeContFile_copied {client : ClientFile} {k : Continuation} (hs : SameAccess w w₁)
    (hi : w.disk.inode client.inode = some i) (h : closeContFile file client k w₁ = .ok f w') :
    Copied w file.dentry.inode i.attrs.access w' := by
  obtain ⟨-, i₁, hi₁, hcopied⟩ := closeContFile_ok h
  obtain ⟨i', hi', ha⟩ := hs.inode hi
  rw [disk_of_inode? hi₁] at hi'
  cases hi'
  exact ha ▸ hcopied.copied.after hs

/-- A call on a segment copies its access up. --/
def CopiesAt (w : World) (d : Dentry) (n : Nat) (p : Int) (w' : World) : Prop :=
  ∃ k i, Locates w d n p none k ∧ w.disk.inode k.inode = some i ∧ Copied w d.inode i.attrs.access w'

/-- The position is not found, unless the client file systems fail. --/
def Missed (w : World) (d : Dentry) (n : Nat) (p : Int) : Prop := InUse w d → ∀ k, ¬Locates w d n p none k

theorem openFs_copies (hv : w.vnode d.inode = some vn) (hfile : file.dentry = d) {r : Except Errno File}
    (h : openFs file w = .ok r w') : Warm w w' ∧ Missed w d vn.ino 0 ∨ CopiesAt w d vn.ino 0 w' := by
  unfold openFs at h
  obtain ⟨o, w₁, hopen, h⟩ := bind_eq_ok.mp h
  obtain ⟨hw, hused⟩ := openContFile_ok hv hfile hopen
  cases o with
  | error e =>
    cases h
    refine Or.inl ⟨hw, fun hin k hk => ?_⟩
    cases hk.opened hin.honest hv hin.live hfile hopen
  | ok o =>
    obtain ⟨k, hk, rfl, -⟩ := hused o rfl
    obtain ⟨f, w₂, hclose, h⟩ := bind_eq_ok.mp h
    cases h
    obtain ⟨i, hi, -⟩ := Disk.inode_of_contData? hk.stored
    exact Or.inr ⟨k, i, hk, hi, hfile ▸ closeContFile_copied hw.sameAccess hi hclose⟩

theorem read_copies (hv : w.vnode d.inode = some vn) (hfile : file.dentry = d) {len : Nat}
    (h : read file len p w = .ok r w') : Warm w w' ∧ Missed w d vn.ino p ∨ CopiesAt w d vn.ino p w' := by
  unfold read at h
  obtain ⟨o, w₁, hopen, h⟩ := bind_eq_ok.mp h
  obtain ⟨hw, hused⟩ := openContFile_ok hv hfile hopen
  cases o with
  | error e =>
    cases h
    refine Or.inl ⟨hw, fun hin k hk => ?_⟩
    cases hk.opened hin.honest hv hin.live hfile hopen
  | ok o =>
    obtain ⟨k, hk, rfl, -⟩ := hused o rfl
    obtain ⟨t, w₂, hread, h⟩ := bind_eq_ok.mp h
    obtain ⟨f, w₃, hclose, h⟩ := bind_eq_ok.mp h
    cases h
    obtain ⟨i, hi, -⟩ := Disk.inode_of_contData? hk.stored
    have hs := hw.sameAccess.trans ((clientRead_sameAccess _ len _).of_ok hread)
    exact Or.inr ⟨k, i, hk, hi, hfile ▸ closeContFile_copied hs hi hclose⟩

/-- A write to the client inode `c` copies its access `a` up; or, where bytes are stored, the access without the set-ID
    bits, which `c` has lost. Unless the clients fail, it is known which. --/
inductive CopiesWritten (w : World) (v : Nat) (c : ClientIno) (a : Access) (honest stored : Prop) (w' : World) : Prop where
  | left (h : Copied w v a w') (hn : honest → ¬stored)
  | stripped (h : Copied (w.stripped c) v (a.stripped w.env) w') (hs : honest → stored)

theorem CopiesWritten.after {honest stored : Prop} (h : SameAccess w w₁) (h' : CopiesWritten w₁ v c a honest stored w') :
    CopiesWritten w v c a honest stored w' := by
  cases h' with
  | left h' hn => exact .left (h'.after h) hn
  | stripped h' hs =>
    rw [h.env] at h'
    exact .stripped (h'.after (h.stripped c)) hs

theorem CopiesWritten.of_iff {honest honest' stored stored' : Prop} (h : CopiesWritten w v c a honest stored w')
    (hh : honest' → honest ∧ (stored ↔ stored')) : CopiesWritten w v c a honest' stored' w' := by
  cases h with
  | left h hn => exact .left h fun hh' => (not_congr (hh hh').2).mp (hn (hh hh').1)
  | stripped h hs => exact .stripped h fun hh' => (hh hh').2.mp (hs (hh hh').1)

theorem writeOpened_copied {data : List UInt8} {o : Opened} (hi : w.inode? o.file.inode = some i)
    (h : writeOpened file data o w = .ok r w') :
    CopiesWritten w file.dentry.inode o.file.inode i.attrs.access (Honest w)
      (w.env.Stores data (writeStart o.file i o.ppos)) w' := by
  unfold writeOpened at h
  obtain ⟨t, w₁, hwrite, h⟩ := bind_eq_ok.mp h
  obtain ⟨f, w₂, hclose, h⟩ := bind_eq_ok.mp h
  cases h
  have hdisk := disk_of_inode? hi
  rcases clientWrite_access hi hwrite with ⟨hs, hn⟩ | ⟨hs, hst⟩
  · exact .left (closeContFile_copied hs hdisk hclose) hn
  · refine .stripped ?_ fun _ => hst
    have hi' : (w.stripped o.file.inode).disk.inode o.file.inode = some (i.fileRemoveSuid w.env) :=
      (Disk.inode_modify_same ..).trans (congrArg _ hdisk)
    exact closeContFile_copied hs hi' hclose

/-- Where a write that goes to the segment `k` begins in its client file. --/
def startIn (flags : Nat) (k : Continuation) (i : ClientInode) (p : Int) : Int :=
  if flags &&& oAppend = 0 then copyDownFile p k.cd.start else i.size

/-- A write to a segment copies up what it leaves of its access. --/
def WritesAt (w : World) (d : Dentry) (n flags : Nat) (p : Int) (data : List UInt8) (w' : World) : Prop :=
  ∃ k i, Locates w d n p none k ∧ w.disk.inode k.inode = some i ∧
    CopiesWritten w d.inode k.inode i.attrs.access (Honest w) (w.env.Stores data (startIn flags k i p)) w'

/-- And so does a write that adds a segment. --/
def WritesNew (w : World) (d : Dentry) (n : Nat) (p : Int) (data : List UInt8) (w' : World) : Prop :=
  ∃ t c u i, Tail w d n none t ∧ w.openPath (afterPath t) contMode = .ok (c, u) ∧ u.disk.inode c = some i ∧
    CopiesWritten u d.inode c i.attrs.access (Honest w) (w.env.Stores data (copyDownFile p (afterStart t c))) w'

theorem createContinuation_opens (hv : w.vnode d.inode = some vn) (hfile : file.dentry = d) {o : Opened}
    (h : createContinuation file p w = .ok (.ok o) w') :
    ∃ t u, Tail w d vn.ino none t ∧ w.openPath (afterPath t) contMode = .ok (o.file.inode, u) ∧ SameAccess u w' ∧
      o.file.flags &&& oAppend = 0 ∧ (∃ i, w'.inode? o.file.inode = some i) ∧
      (Honest w → Honest w' ∧ o.ppos = copyDownFile p (afterStart t o.file.inode)) := by
  obtain ⟨t, c, u, w₁, w₂, w₃, w₄, r₁, r₂, cd, ht, -, hw₁, ho, hw₂, hset₁, hset₂, hw', hcd, rfl⟩ :=
    createContinuation_ok hv hfile h
  obtain ⟨u', ho', hu⟩ := hw₁.of_openPath ho
  have hsame := (hu.trans hw₂).sameAccess.trans
    ((setContData_sameAccess hset₁).trans ((setContData_sameAccess hset₂).trans hw'.sameAccess))
  refine ⟨t, u', ht, ho', hsame, by rw [openedAt_flags]; decide, inode?_of_contData? hcd, fun hh => ?_⟩
  obtain ⟨t', c', u₁, hgrew⟩ := createContinuation_grew hh hv hfile h
  obtain ⟨k, hopened, hk, hstart⟩ := hgrew.opens
  obtain rfl := ht.unique hgrew.tail
  refine ⟨hgrew.honest hh, ?_⟩
  rw [hopened]
  exact congrArg (copyDownFile p) (hstart.trans (congrArg (afterStart t) hk.symm))

theorem write_copies (hv : w.vnode d.inode = some vn) (hfile : file.dentry = d) {data : List UInt8}
    (h : write file data p w = .ok r w') :
    Warm w w' ∧ Missed w d vn.ino p ∧ (InUse w d → ¬CanGrow w d vn.ino) ∨ WritesAt w d vn.ino file.flags p data w' ∨
      Missed w d vn.ino p ∧ WritesNew w d vn.ino p data w' := by
  unfold write at h
  obtain ⟨o, w₁, hopen, h⟩ := bind_eq_ok.mp h
  obtain ⟨hw, hused⟩ := openContFile_ok hv hfile hopen
  cases o with
  | ok o =>
    obtain ⟨k, hk, rfl, hlive⟩ := hused o rfl
    obtain ⟨i, hi, -⟩ := Disk.inode_of_contData? hk.stored
    have hcopied := writeOpened_copied (inode?_of_live hlive (hw.disk ▸ hi)) h
    refine Or.inr (Or.inl ⟨k, i, hk, hi, ?_⟩)
    refine hfile ▸ (hcopied.after hw.sameAccess).of_iff fun hh => ⟨hh.warm hw, ?_⟩
    rw [hw.env]
    exact Iff.rfl
  | error e =>
    have hmissed : Missed w d vn.ino p := by
      intro hin k hk
      cases hk.opened hin.honest hv hin.live hfile hopen
    dsimp only at h
    split at h
    · obtain ⟨o, w₂, hcreate, h⟩ := bind_eq_ok.mp h
      cases o with
      | error e =>
        cases h
        obtain ⟨hw₂, hstuck⟩ := createContinuation_error (hw.vnode ▸ hv) hfile hcreate
        exact Or.inl ⟨hw.trans hw₂, hmissed, fun hin hg => hstuck (hin.honest.warm hw) (hw.live hin.live) (hg.warm hw)⟩
      | ok o =>
        obtain ⟨t, u, ht, ho, hsame, hflags, ⟨i, hi⟩, hplace⟩ := createContinuation_opens (hw.vnode ▸ hv) hfile hcreate
        obtain ⟨u', ho', hu⟩ := hw.of_openPath ho
        have hs := hu.sameAccess.trans hsame
        obtain ⟨i', hi', ha⟩ := hs.symm.inode (disk_of_inode? hi)
        have hcopied := hfile ▸ ha ▸ (writeOpened_copied hi h).after hs
        refine Or.inr (Or.inr ⟨hmissed, t, o.file.inode, u', i', ht.of_later hw.sameDisk hw.caches, ho', hi', ?_⟩)
        refine hcopied.of_iff fun hh => ?_
        obtain ⟨hh₂, hppos⟩ := hplace (hh.warm hw)
        refine ⟨hh₂, ?_⟩
        rw [writeStart_of_not_append hflags, hppos, hs.env, (openPath_env ho').1]
        exact Iff.rfl
    · rename_i hne
      cases h
      refine Or.inl ⟨hw, hmissed, fun hin ⟨t, c, u, ht, ho⟩ => hne ?_⟩
      exact Except.error.inj (ht.unopened hin.honest hv hin.live (hmissed hin) hfile hopen)

theorem warm_fsyncs (w : World) (l : List Fsync) : Warm w { w with fsyncs := l } :=
  ⟨rfl, rfl, rfl, rfl, List.suffix_refl _, rfl, fun _ => Or.inl rfl⟩

theorem fsyncLoop_warm {fuel : Nat} {first last : Int} {prev : Option Continuation} {r : Except Errno Unit}
    (hv : w.vnode d.inode = some vn) (h : fsyncLoop fuel d first last prev w = .ok r w') : Warm w w' := by
  induction fuel generalizing prev w with
  | zero => cases h
  | succ fuel ih =>
    obtain ⟨o, w₁, hnext, h⟩ := bind_eq_ok.mp h
    obtain ⟨hw, -⟩ := getNextCont_ok hnext hv
    cases o with
    | error e =>
      cases h
      exact hw
    | ok o =>
      cases o with
      | none =>
        cases h
        exact hw
      | some next =>
        obtain ⟨e, w₂, hfsync, h⟩ := bind_eq_ok.mp h
        obtain ⟨e', w₃, hask, hlog⟩ := bind_eq_ok.mp hfsync
        have hw₃ := (hw.trans (ask_ok hask)).trans (warm_fsyncs w₃ (w₃.fsyncs ++ [⟨next.inode, first, last, e'⟩]))
        cases hlog
        exact hw₃.trans (ih (hw₃.vnode ▸ hv) h)

theorem fsyncFile_warm {first last : Int} {r : Except Errno Unit} (hv : w.vnode d.inode = some vn) (hfile : file.dentry = d)
    (h : fsyncFile file first last w = .ok r w') : Warm w w' := by
  unfold fsyncFile at h
  rw [bind_ok (get_apply w), hfile] at h
  exact fsyncLoop_warm hv h

/-- The head takes all the attributes. --/
theorem writeInode_copies {r : Except Errno Unit} (hv : w.vnode v = some vn) (hc : vn.client = some c)
    (h : writeInode v w = .ok r w') : Warm { w with disk := w.disk.modify c fun i => { i with attrs := vn.attrs } } w' := by
  unfold writeInode copyDownInode at h
  obtain ⟨vn₁, w₁, hvn₁, h⟩ := bind_eq_ok.mp h
  obtain ⟨hv₁, rfl⟩ := vnodeAt_ok hvn₁
  rw [hv] at hv₁
  cases hv₁
  simp only [hc] at h
  obtain ⟨_, w₂, hdown, h⟩ := bind_eq_ok.mp h
  obtain ⟨vn₂, w₃, hvn₂, hmodify⟩ := bind_eq_ok.mp hdown
  obtain ⟨hv₂, rfl⟩ := vnodeAt_ok hvn₂
  rw [hv] at hv₂
  cases hv₂
  cases hmodify
  obtain ⟨o, w₄, hask, h⟩ := bind_eq_ok.mp h
  cases o <;> cases h <;> exact ask_ok hask

theorem openFs_inUse (h : InUse w d) (hfile : file.dentry = d) {r : Except Errno File} (hr : openFs file w = .ok r w') :
    InUse w' d := by
  obtain ⟨vn, hv⟩ := h.vnode
  unfold openFs at hr
  obtain ⟨o, w₁, hopen, hr⟩ := bind_eq_ok.mp hr
  obtain ⟨hw, -⟩ := openContFile_ok hv hfile hopen
  cases o with
  | error e =>
    cases hr
    exact h.warm hw
  | ok o =>
    obtain ⟨f, w₂, hclose, hr⟩ := bind_eq_ok.mp hr
    cases hr
    obtain ⟨-, i, -, hcopied⟩ := closeContFile_ok hclose
    exact (h.warm hw).copiedFrom hcopied

end Calls

/-! ### Runs -/

namespace Access
open Run

/-- The calls on an open file, and the one that writes its inode. --/
inductive Op where
  | openFs
  | read (len : Nat) (ppos : Int)
  | write (data : List UInt8) (ppos : Int)
  | fsyncFile (first last : Int)
  | writeInode

/-- A call, with the position and the flags of the open file it is made on and the kernel it finds. --/
structure Request where
  op : Op
  pos : Int
  flags : Nat
  env : Env

def Request.file (x : Request) (d : Dentry) : File := ⟨d, x.pos, x.flags⟩

def returned {α : Type} : EStateM.Result Stop World α → Option World
  | .ok _ w => some w
  | .error _ _ => none

theorem returned_eq {α : Type} {o : EStateM.Result Stop World α} {w : World} :
    returned o = some w ↔ ∃ r, o = .ok r w := by
  cases o with
  | ok r w₁ =>
    refine ⟨fun h => ?_, fun ⟨_, h⟩ => ?_⟩ <;> cases h
    · exact ⟨r, rfl⟩
    · rfl
  | error e w₁ => exact ⟨fun h => (by cases h), fun ⟨_, h⟩ => (by cases h)⟩

def step (d : Dentry) (w : World) (x : Request) : Option World :=
  match x.op with
  | .openFs => returned (Chunkfs.openFs (x.file d) (w.withEnv x.env))
  | .read len ppos => returned (Chunkfs.read (x.file d) len ppos (w.withEnv x.env))
  | .write data ppos => returned (Chunkfs.write (x.file d) data ppos (w.withEnv x.env))
  | .fsyncFile first last => returned (Chunkfs.fsyncFile (x.file d) first last (w.withEnv x.env))
  | .writeInode => returned (Chunkfs.writeInode d.inode (w.withEnv x.env))

/-- No call of the script fails. --/
def Answers (e : Env) : Prop := ∀ err, Outcome.fails err ∉ e.script

/-- The chunkfs inode of `d` has the access `a`, and its head the access `b`. --/
structure Shows (d : Dentry) (a b : Access) (w : World) : Prop where
  vnode : ∃ vn, w.vnode d.inode = some vn ∧ vn.client = some d.client ∧ vn.attrs.access = a
  head : ∃ i, w.disk.inode d.client = some i ∧ i.attrs.access = b

/-- The segment at `p` has the access of the chunkfs inode. --/
def AgreesAt (w : World) (d : Dentry) (p : Int) : Prop :=
  ∀ vn k i, w.vnode d.inode = some vn → Locates w d vn.ino p none k → w.disk.inode k.inode = some i →
    i.attrs.access = vn.attrs.access

/-- A client inode has the access `b`, the chunkfs inode `a`. A write that stores bytes leaves `a` if it is what the
    set-ID bits leave of `b`, and they leave all of it in the `head`; a write that stores none, if it is `b`. Where the
    clients may fail it can be either. --/
def WriteAgrees (e : Env) (a b : Access) (head stored : Prop) : Prop :=
  (stored ∨ ¬Answers e → b.stripped e = a ∧ (head → b.stripped e = b)) ∧ (¬stored ∨ ¬Answers e → b = a)

/-- That is so of the segment at `p`. --/
def WriteAgreesAt (w : World) (d : Dentry) (flags : Nat) (data : List UInt8) (p : Int) : Prop :=
  ∀ vn k i, w.vnode d.inode = some vn → Locates w d vn.ino p none k → w.disk.inode k.inode = some i →
    WriteAgrees w.env vn.attrs.access i.attrs.access (k.inode = d.client) (w.env.Stores data (startIn flags k i p))

/-- And of the file that a write at `p` adds for want of one. --/
def WriteAgreesNew (w : World) (d : Dentry) (data : List UInt8) (p : Int) : Prop :=
  ∀ vn t c u i, w.vnode d.inode = some vn → Missed w d vn.ino p → Tail w d vn.ino none t →
    w.openPath (afterPath t) contMode = .ok (c, u) → u.disk.inode c = some i →
    WriteAgrees w.env vn.attrs.access i.attrs.access (c = d.client)
      (w.env.Stores data (copyDownFile p (afterStart t c)))

/-- What the call copies is the access there was. --/
def Agrees (d : Dentry) (w : World) (x : Request) : Prop :=
  match x.op with
  | .openFs => AgreesAt (w.withEnv x.env) d 0
  | .read _ ppos => AgreesAt (w.withEnv x.env) d ppos
  | .write data ppos =>
    WriteAgreesAt (w.withEnv x.env) d x.flags data ppos ∧ WriteAgreesNew (w.withEnv x.env) d data ppos
  | .fsyncFile .. => True
  | .writeInode => ∀ vn i, w.vnode d.inode = some vn → w.disk.inode d.client = some i → i.attrs.access = vn.attrs.access

/-- Nothing fails in the clients. --/
def Answered (x : Request) : Prop := Answers x.env

section Steps
variable {w w' : World} {d : Dentry} {vn : Vnode} {a b c : Access} {p : Int} {x : Request}

theorem Shows.withEnv (h : Shows d a b w) (e : Env) : Shows d a b (w.withEnv e) := ⟨h.vnode, h.head⟩

theorem Shows.sameAccess (h : Shows d a b w) (hw : SameAccess w w') : Shows d a b w' where
  vnode := hw.vnode ▸ h.vnode
  head := by
    obtain ⟨i, hi, hb⟩ := h.head
    obtain ⟨i', hi', ha⟩ := hw.inode hi
    exact ⟨i', hi', ha.trans hb⟩

theorem Shows.copied (h : Shows d a b w) (hc : Copied w d.inode c w') : Shows d a b w' ↔ c = a := by
  obtain ⟨vn, hv, hclient, -⟩ := h.vnode
  obtain ⟨vn', hv', hclient', hc'⟩ := hc.vnode vn hv
  constructor
  · rintro ⟨⟨vn'', hv'', -, ha⟩, -⟩
    rw [hv'] at hv''
    cases hv''
    exact hc'.symm.trans ha
  · rintro rfl
    obtain ⟨i, hi, hb⟩ := h.head
    obtain ⟨i', hi', ha⟩ := hc.disk _ i hi
    exact ⟨⟨vn', hv', hclient'.trans hclient, hc'⟩, i', hi', ha.trans hb⟩

/-- A call on the segment at `p` leaves the access if and only if the segment has it. --/
theorem Shows.opened (h : Shows d a b w) (hv : w.vnode d.inode = some vn)
    (hcall : Warm w w' ∧ Missed w d vn.ino p ∨ CopiesAt w d vn.ino p w') :
    (AgreesAt w d p → Shows d a b w') ∧ (InUse w d → Shows d a b w' → AgreesAt w d p) := by
  obtain ⟨vn₀, hv₀, -, rfl⟩ := h.vnode
  obtain rfl : vn = vn₀ := Option.some.inj (hv.symm.trans hv₀)
  rcases hcall with ⟨hw, hmissed⟩ | ⟨k, i, hk, hi, hcopied⟩
  · refine ⟨fun _ => h.sameAccess hw.sameAccess, fun hin _ vn' k i hv' hk _ => ?_⟩
    obtain rfl := Option.some.inj (hv.symm.trans hv')
    exact absurd hk (hmissed hin k)
  · refine ⟨fun ha => (h.copied hcopied).mpr (ha vn k i hv hk hi), fun _ h' vn' k' i' hv' hk' hi' => ?_⟩
    obtain rfl := Option.some.inj (hv.symm.trans hv')
    obtain rfl := hk.unique hk'
    obtain rfl := Option.some.inj (hi.symm.trans hi')
    exact (h.copied hcopied).mp h'

/-- The head loses its set-ID bits with the client inode it is. --/
theorem Shows.stripped (h : Shows d a b w) (c : ClientIno) :
    Shows d a (if c = d.client then b.stripped w.env else b) (w.stripped c) where
  vnode := h.vnode
  head := by
    obtain ⟨i, hi, rfl⟩ := h.head
    split
    · rename_i hc
      subst hc
      exact ⟨_, (Disk.inode_modify_same ..).trans (congrArg _ hi), rfl⟩
    · rename_i hc
      exact ⟨i, (Disk.inode_modify_of_ne (Ne.symm hc)).trans hi, rfl⟩

theorem Shows.unique {a' b' : Access} (h : Shows d a b w) (h' : Shows d a' b' w) : a = a' ∧ b = b' := by
  obtain ⟨⟨vn, hv, -, ha⟩, i, hi, hb⟩ := h
  obtain ⟨⟨vn', hv', -, ha'⟩, i', hi', hb'⟩ := h'
  obtain rfl := Option.some.inj (hv.symm.trans hv')
  obtain rfl := Option.some.inj (hi.symm.trans hi')
  exact ⟨ha.symm.trans ha', hb.symm.trans hb'⟩

/-- Every inode has shown some access after a call that copies one up. --/
theorem Shows.shows (h : Shows d a b w) (hc : Copied w d.inode c w') : Shows d c b w' := by
  obtain ⟨vn, hv, hclient, -⟩ := h.vnode
  obtain ⟨vn', hv', hclient', hc'⟩ := hc.vnode vn hv
  obtain ⟨i, hi, hb⟩ := h.head
  obtain ⟨i', hi', ha⟩ := hc.disk _ i hi
  exact ⟨⟨vn', hv', hclient'.trans hclient, hc'⟩, i', hi', ha.trans hb⟩

/-- A write to the client inode `x` leaves the access if and only if what it leaves of that of `x` is the same. --/
theorem Shows.wrote {x : ClientIno} {i : ClientInode} {stored : Prop} (h : Shows d a b w)
    (hi : w.disk.inode x = some i)
    (hc : CopiesWritten w d.inode x i.attrs.access (Answers w.env) stored w') :
    (WriteAgrees w.env a i.attrs.access (x = d.client) stored → Shows d a b w') ∧
      (Answers w.env → Shows d a b w' → WriteAgrees w.env a i.attrs.access (x = d.client) stored) := by
  have hhead (hx : x = d.client) : b = i.attrs.access := by
    obtain ⟨i', hi', hb⟩ := h.head
    obtain rfl := Option.some.inj ((hx ▸ hi).symm.trans hi')
    exact hb.symm
  cases hc with
  | left hc hn =>
    have hor : ¬stored ∨ ¬Answers w.env := (not_or_of_imp hn).symm
    refine ⟨fun hagree => (h.copied hc).mpr (hagree.2 hor), fun hans h' => ⟨?_, fun _ => (h.copied hc).mp h'⟩⟩
    · rintro (hst | hnot)
      · exact absurd hst (hn hans)
      · exact absurd hans hnot
  | stripped hc hs =>
    have hshows := (h.stripped x).shows hc
    refine ⟨fun hagree => ?_, fun hans h' => ⟨fun _ => ?_, ?_⟩⟩
    · have hor : stored ∨ ¬Answers w.env := (not_or_of_imp hs).symm
      obtain ⟨ha, hkept⟩ := hagree.1 hor
      have hb : (if x = d.client then b.stripped w.env else b) = b := by
        split
        · rename_i hx
          rw [hhead hx]
          exact hkept hx
        · rfl
      rwa [ha, hb] at hshows
    · obtain ⟨ha, hb⟩ := hshows.unique h'
      refine ⟨ha, fun hx => ?_⟩
      rwa [if_pos hx, hhead hx] at hb
    · rintro (hnot | hnot)
      · exact absurd (hs hans) hnot
      · exact absurd hans hnot

theorem Shows.opensPath {path : List Char} {mode : Nat} {x : ClientIno} {u : World} (h : Shows d a b w)
    (ho : w.openPath path mode = .ok (x, u)) : Shows d a b u where
  vnode := openPath_vnode ho ▸ h.vnode
  head := by
    obtain ⟨i, hi, hb⟩ := h.head
    exact ⟨i, openPath_inode ho hi, hb⟩

theorem Shows.written {flags : Nat} {data : List UInt8} (h : Shows d a b w) (hv : w.vnode d.inode = some vn)
    (hcall : Warm w w' ∧ Missed w d vn.ino p ∧ (InUse w d → ¬CanGrow w d vn.ino) ∨ WritesAt w d vn.ino flags p data w' ∨
      Missed w d vn.ino p ∧ WritesNew w d vn.ino p data w') :
    (WriteAgreesAt w d flags data p ∧ WriteAgreesNew w d data p → Shows d a b w') ∧
      (InUse w d → Shows d a b w' → WriteAgreesAt w d flags data p ∧ WriteAgreesNew w d data p) := by
  obtain ⟨vn₀, hv₀, -, rfl⟩ := h.vnode
  obtain rfl : vn = vn₀ := Option.some.inj (hv.symm.trans hv₀)
  rcases hcall with ⟨hw, hmissed, hstuck⟩ | ⟨k, i, hk, hi, hcopied⟩ | ⟨hmissed, t, c, u, i, ht, ho, hi, hcopied⟩
  · refine ⟨fun _ => h.sameAccess hw.sameAccess, fun hin _ => ⟨fun vn' k i hv' hk _ => ?_, fun vn' t c u i hv' _ ht ho _ => ?_⟩⟩
    · obtain rfl := Option.some.inj (hv.symm.trans hv')
      exact absurd hk (hmissed hin k)
    · obtain rfl := Option.some.inj (hv.symm.trans hv')
      exact absurd ⟨t, c, u, ht, ho⟩ (hstuck hin)
  · obtain ⟨hkeep, hback⟩ := h.wrote hi hcopied
    refine ⟨fun ha => hkeep (ha.1 vn k i hv hk hi), fun hin h' => ⟨fun vn' k' i' hv' hk' hi' => ?_, ?_⟩⟩
    · obtain rfl := Option.some.inj (hv.symm.trans hv')
      obtain rfl := hk.unique hk'
      obtain rfl := Option.some.inj (hi.symm.trans hi')
      exact hback hin.honest h'
    · intro vn' t c u i' hv' hmissed _ _ _
      obtain rfl := Option.some.inj (hv.symm.trans hv')
      exact absurd hk (hmissed hin k)
  · have henv := (openPath_env ho).1
    have hu := (h.opensPath ho).wrote hi (hcopied.of_iff fun hans => ⟨show Answers w.env from henv ▸ hans, Iff.rfl⟩)
    rw [henv] at hu
    refine ⟨fun ha => hu.1 (ha.2 vn t c u i hv hmissed ht ho hi), fun hin h' => ⟨?_, ?_⟩⟩
    · intro vn' k i' hv' hk _
      obtain rfl := Option.some.inj (hv.symm.trans hv')
      exact absurd hk (hmissed hin k)
    · intro vn' t' c' u' i' hv' _ ht' ho' hi'
      obtain rfl := Option.some.inj (hv.symm.trans hv')
      obtain rfl := ht.unique ht'
      rw [ho] at ho'
      cases ho'
      obtain rfl := Option.some.inj (hi.symm.trans hi')
      exact hu.2 hin.honest h'

/-- Writing the inode gives the head the access of the chunkfs inode. --/
theorem Shows.writtenBack (h : Shows d a b w) {r : Except Errno Unit} (hr : Chunkfs.writeInode d.inode w = .ok r w') :
    Shows d a b w' ↔ b = a := by
  obtain ⟨vn, hv, hclient, rfl⟩ := h.vnode
  obtain ⟨i, hi, hb⟩ := h.head
  have hw := (writeInode_copies hv hclient hr).sameAccess
  have hi' := (Disk.inode_modify_same ..).trans (congrArg (Option.map fun i : ClientInode => { i with attrs := vn.attrs }) hi)
  obtain ⟨i', hi', ha⟩ := hw.inode hi'
  constructor
  · rintro ⟨-, i'', hi'', hb'⟩
    rw [hi'] at hi''
    cases hi''
    exact hb'.symm.trans ha
  · rintro rfl
    refine ⟨⟨vn, ?_, hclient, rfl⟩, i', hi', ha⟩
    rw [hw.vnode]
    exact hv

/-- A call leaves the access if it copies none but that; and where the clients do not fail, only then. --/
theorem step_shows (h : Shows d a b w) (hs : step d w x = some w') :
    (Agrees d w x → Shows d a b w') ∧ (InUse (w.withEnv x.env) d → Shows d a b w' → Agrees d w x) := by
  have he := h.withEnv x.env
  obtain ⟨vn, hv, -⟩ := he.vnode
  unfold step at hs
  unfold Agrees
  cases hop : x.op with
  | openFs =>
    rw [hop] at hs
    obtain ⟨r, hr⟩ := returned_eq.mp hs
    exact he.opened hv (openFs_copies hv rfl hr)
  | read len ppos =>
    rw [hop] at hs
    obtain ⟨r, hr⟩ := returned_eq.mp hs
    exact he.opened hv (read_copies hv rfl hr)
  | write data ppos =>
    rw [hop] at hs
    obtain ⟨r, hr⟩ := returned_eq.mp hs
    exact he.written hv (write_copies hv rfl hr)
  | fsyncFile first last =>
    rw [hop] at hs
    obtain ⟨r, hr⟩ := returned_eq.mp hs
    exact ⟨fun _ => he.sameAccess (fsyncFile_warm hv rfl hr).sameAccess, fun _ _ => trivial⟩
  | writeInode =>
    rw [hop] at hs
    obtain ⟨r, hr⟩ := returned_eq.mp hs
    obtain ⟨vn, hv, -, ha⟩ := h.vnode
    obtain ⟨i, hi, hb⟩ := h.head
    refine ⟨fun hagree => (he.writtenBack hr).mpr ?_, fun _ h' vn' i' hv' hi' => ?_⟩
    · exact hb.symm.trans ((hagree vn i hv hi).trans ha)
    · rw [hv] at hv'
      cases hv'
      rw [hi] at hi'
      cases hi'
      exact hb.trans (((he.writtenBack hr).mp h').trans ha.symm)

/-- A call that nothing fails in leaves the head in memory. --/
theorem step_live (h : InUse (w.withEnv x.env) d) (hclient : ∃ vn, w.vnode d.inode = some vn ∧ vn.client = some d.client)
    (hs : step d w x = some w') : w'.icache d.client = .live := by
  obtain ⟨vn, hv, hclient⟩ := hclient
  unfold step at hs
  cases hop : x.op with
  | openFs =>
    rw [hop] at hs
    obtain ⟨r, hr⟩ := returned_eq.mp hs
    exact (openFs_inUse h rfl hr).live
  | read len ppos =>
    rw [hop] at hs
    obtain ⟨r, hr⟩ := returned_eq.mp hs
    exact (h.read rfl hr).live
  | write data ppos =>
    rw [hop] at hs
    obtain ⟨r, hr⟩ := returned_eq.mp hs
    exact (h.write rfl hr).live
  | fsyncFile first last =>
    rw [hop] at hs
    obtain ⟨r, hr⟩ := returned_eq.mp hs
    exact (fsyncFile_warm (w := w.withEnv x.env) hv rfl hr).live h.live
  | writeInode =>
    rw [hop] at hs
    obtain ⟨r, hr⟩ := returned_eq.mp hs
    exact (writeInode_copies (w := w.withEnv x.env) hv hclient hr).live h.live

theorem step_inUse (h : Shows d a b w) (hlive : w.icache d.client = .live) (hx : Answered x) : InUse (w.withEnv x.env) d := by
  obtain ⟨vn, hv, -⟩ := h.vnode
  exact ⟨hx, ⟨vn, hv⟩, hlive⟩

/-- In every run of calls that copy only the access there was, it stays; and where the clients do not fail, it stays in
    no other run. --/
theorem access_stays (h : Shows d a b w) :
    (∀ xs, Each (step d) (Agrees d) w xs → Always (step d) (Shows d a b) (fun _ _ => True) w xs) ∧
      (w.icache d.client = .live → ∀ xs, (run (step d) w xs).isSome → (∀ x ∈ xs, Answered x) →
        (Always (step d) (Shows d a b) (fun _ _ => True) w xs ↔ Each (step d) (Agrees d) w xs)) := by
  constructor
  · intro xs hq
    exact always_of_each (I := Shows d a b) (fun _ h => h)
      (fun w x h hx => ⟨trivial, fun w' hs => (step_shows h hs).1 hx⟩) h hq
  · intro hlive xs hrun hxs
    have hiff : Always (step d) (Shows d a b) (fun _ x => Answered x) w xs ↔
        Each (step d) (fun w x => Agrees d w x ∧ Answered x) w xs := by
      refine always_iff_each (I := fun w => Shows d a b w ∧ w.icache d.client = .live) (fun _ h => h.1) ?_ ?_
        ⟨h, hlive⟩ hrun
      · rintro w x ⟨h, hlive⟩ ⟨hx, hans⟩
        refine ⟨hans, fun w' hs => ⟨(step_shows h hs).1 hx, step_live (step_inUse h hlive hans) ?_ hs⟩⟩
        obtain ⟨vn, hv, hclient, -⟩ := h.vnode
        exact ⟨vn, hv, hclient⟩
      · rintro w x w' ⟨h, hlive⟩ hs hans h'
        exact ⟨(step_shows h hs).2 (step_inUse h hlive hans) h', hans⟩
    have hall : Each (step d) (fun _ x => Answered x) w xs := each_of_forall fun x hx _ => hxs x hx
    rw [always_and_each, each_and] at hiff
    exact ⟨fun ha => (hiff.mp ⟨ha, hall⟩).1, fun hq => (hiff.mpr ⟨hq, hall⟩).1⟩

end Steps

/-! ### A file that changes hands -/

/-- The requests of a process of user 2000 and without `umask` that opened the file for writing. --/
def guest (op : Op) : Request := ⟨op, 0, 2, { quietEnv with fsuid := 2000, fsgid := 2000, umask := 0 }⟩

/-- A new file's access. --/
def ownAccess : Access := ⟨0o100644, 1000, 1000, 1⟩

theorem oneFile_shows : Shows firstDentry ownAccess ownAccess (oneFile [1, 2] quietEnv) :=
  ⟨⟨_, rfl, rfl, by decide⟩, _, rfl, by decide⟩

theorem oneFile_locates (e : Env) : Locates ((oneFile [1, 2] quietEnv).withEnv e) firstDentry firstIno.uino 5 none
    (loaded firstIno initCd (uinoToChunkId firstIno.uino)) := by
  have hdata : (oneFile [1, 2] quietEnv).disk.contData? firstIno = some initCd := by decide +kernel
  have hpool : uinoToChunkId firstIno.uino ∈ [1, 2] := by decide +kernel
  exact .here (.head _ hdata hpool) (by decide)

/-- A guest's write to the first segment does not. --/
theorem access_stays_oneFile :
    Always (step firstDentry) (Shows firstDentry ownAccess ownAccess) (fun _ _ => True) (oneFile [1, 2] quietEnv)
      [guest (.write [7] 5), guest .writeInode] := by
  have hwrite : Agrees firstDentry (oneFile [1, 2] quietEnv) (guest (.write [7] 5)) := by
    constructor
    · intro vn k i hv hk hi
      cases hv
      obtain rfl := (oneFile_locates _).unique hk
      cases hi
      exact ⟨fun _ => ⟨by decide, fun _ => by decide⟩, fun _ => rfl⟩
    · intro vn t c u i hv hmissed _ _ _
      cases hv
      have hin : InUse ((oneFile [1, 2] quietEnv).withEnv (guest (.write [7] 5)).env) firstDentry :=
        ⟨fun e he => (by cases he), ⟨_, rfl⟩, rfl⟩
      exact absurd (oneFile_locates _) (hmissed hin _)
  refine (access_stays oneFile_shows).1 _ ⟨hwrite, fun w hs => ⟨fun vn i hv hi => ?_, fun _ _ => trivial⟩⟩
  obtain ⟨⟨vn', hv', -, ha⟩, i', hi', hb⟩ := (step_shows oneFile_shows hs).1 hwrite
  rw [hv'] at hv
  cases hv
  rw [hi'] at hi
  cases hi
  exact hb.trans ha.symm

/-- A guest's write past the first segment gives the guest the file. --/
theorem access_changes : Shows firstDentry ownAccess ownAccess (oneFile [1, 2] quietEnv) ∧
    ∃ w, run (step firstDentry) (oneFile [1, 2] quietEnv) [guest (.write [7] 40960), guest .writeInode] = some w ∧
      ¬Shows firstDentry ownAccess ownAccess w := by
  have hvalue : (run (step firstDentry) (oneFile [1, 2] quietEnv) [guest (.write [7] 40960), guest .writeInode]).map
      (fun w => (w.disk.inode firstIno).map (·.attrs.access)) = some (some ⟨0o100016, 2000, 2000, 1⟩) := by decide +kernel
  obtain ⟨w, hw, hi⟩ := Option.map_eq_some_iff.mp hvalue
  refine ⟨oneFile_shows, w, hw, fun h => ?_⟩
  obtain ⟨i, hhead, hown⟩ := h.head
  rw [show firstDentry.client = firstIno from rfl] at hhead
  rw [hhead, Option.map_some, hown] at hi
  exact absurd (Option.some.inj hi) (by decide)

end Access

end Chunkfs
