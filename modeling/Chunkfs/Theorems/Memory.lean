import Chunkfs.Namei
import Chunkfs.Theorems.Warm

/-! Calls that change memory alone: whatever they return and wherever they are cut short, the disk is as it was. --/

namespace Chunkfs
open Exec

/-- `w'` has the disk and the pool of `w`. --/
structure SameDisk (w w' : World) : Prop where
  disk : w'.disk = w.disk
  pool : w'.pool = w.pool

/-- What was cached is cached as it was. --/
def CachesMore (w w' : World) : Prop := ∀ c, w'.icache c = w.icache c ∨ w.icache c = .absent

/-- `w'` differs from `w` only in references, in what is cached besides the inodes in memory, in what has been synced,
    and in the answers used up. --/
structure Quiet (w w' : World) : Prop extends SameDisk w w' where
  vnode : w'.vnode = w.vnode
  script : w'.env.script <:+ w.env.script
  env : w'.env = { w.env with script := w'.env.script }
  caches : CachesMore w w'

/-- The references are as they were, too, and nothing has been read in. --/
structure Still (w w' : World) : Prop extends Quiet w w' where
  refs : w'.refs = w.refs
  vnext : w'.vnext = w.vnext
  blank : ∀ c, w'.icache c = w.icache c ∨ w.icache c = .absent ∧ w'.icache c = .blank

theorem CachesMore.refl (w : World) : CachesMore w w := fun _ => Or.inl rfl

theorem CachesMore.trans {w w' w'' : World} (h : CachesMore w w') (h' : CachesMore w' w'') : CachesMore w w'' := fun c => by
  rcases h c with hc | hc
  · exact hc ▸ h' c
  · exact Or.inr hc

theorem CachesMore.live {w w' : World} (h : CachesMore w w') {c : ClientIno} (hc : w.icache c = .live) :
    w'.icache c = .live := by
  rcases h c with h | h
  · exact h ▸ hc
  · rw [h] at hc
    cases hc

theorem Warm.caches {w w' : World} (h : Warm w w') : CachesMore w w' := fun c => (h.icache c).imp_right And.left

theorem SameDisk.refl (w : World) : SameDisk w w := ⟨rfl, rfl⟩

theorem SameDisk.trans {w w' w'' : World} (h : SameDisk w w') (h' : SameDisk w' w'') : SameDisk w w'' :=
  ⟨h'.disk.trans h.disk, h'.pool.trans h.pool⟩

instance : IsPreorder World SameDisk where
  refl := SameDisk.refl
  trans _ _ _ := SameDisk.trans

theorem Warm.sameDisk {w w' : World} (h : Warm w w') : SameDisk w w' := ⟨h.disk, h.pool⟩

theorem Warm.quiet {w w' : World} (h : Warm w w') : Quiet w w' :=
  ⟨h.sameDisk, h.vnode, h.script, h.env, h.caches⟩

theorem Quiet.refl (w : World) : Quiet w w := (Warm.refl w).quiet

theorem Quiet.trans {w w' w'' : World} (h : Quiet w w') (h' : Quiet w' w'') : Quiet w w'' where
  toSameDisk := h.toSameDisk.trans h'.toSameDisk
  vnode := h'.vnode.trans h.vnode
  script := h'.script.trans h.script
  env := by rw [h'.env, h.env]
  caches := h.caches.trans h'.caches

instance : IsPreorder World Still where
  refl w := ⟨.refl w, rfl, rfl, fun _ => Or.inl rfl⟩
  trans _ _ _ h h' := by
    refine ⟨h.toQuiet.trans h'.toQuiet, h'.refs.trans h.refs, h'.vnext.trans h.vnext, fun c => ?_⟩
    rcases h.blank c with hc | ⟨ha, hb⟩ <;> rcases h'.blank c with hc' | ⟨ha', hb'⟩
    · exact Or.inl (hc'.trans hc)
    · exact Or.inr ⟨hc.symm.trans ha', hb'⟩
    · exact Or.inr ⟨ha, hc'.trans hb⟩
    · exact Or.inr ⟨ha, hb'⟩

/-- What can be read of an inode stays the same. --/
theorem Still.inode? {w w' : World} (h : Still w w') (c : ClientIno) : w'.inode? c = w.inode? c := by
  unfold World.inode?
  rcases h.blank c with hc | ⟨hc, hc'⟩
  · rw [hc, h.disk]
  · rw [hc, hc']

theorem Still.live_iff {w w' : World} (h : Still w w') {c : ClientIno} : w'.icache c = .live ↔ w.icache c = .live := by
  rcases h.blank c with hc | ⟨hc, hc'⟩
  · rw [hc]
  · rw [hc, hc']
    exact ⟨nofun, nofun⟩

theorem Still.bad_iff {w w' : World} (h : Still w w') {c : ClientIno} : w'.icache c = .bad ↔ w.icache c = .bad := by
  rcases h.blank c with hc | ⟨hc, hc'⟩
  · rw [hc]
  · rw [hc, hc']
    exact ⟨nofun, nofun⟩

section Calls

theorem quiet {α : Type} {m : Kern α} (h : Stays Still m) : Stays Quiet m := h.mono fun _ _ hs => hs.toQuiet

theorem offDisk {α : Type} {m : Kern α} (h : Stays Quiet m) : Stays SameDisk m := h.mono fun _ _ hq => hq.toSameDisk

theorem refs_quiet (f : Refs → Refs) : Stays Quiet (modify fun w => { w with refs := f w.refs } : Kern PUnit) :=
  .modify fun _ => ⟨⟨rfl, rfl⟩, rfl, List.suffix_refl _, rfl, .refl _⟩

theorem ask_still : Stays Still ask := by
  have used : ∀ {w : World} {o : Outcome} {rest : List Outcome}, w.env.script = o :: rest →
      Still w { w with env := { w.env with script := rest } } := fun hs =>
    ⟨⟨⟨rfl, rfl⟩, rfl, hs ▸ List.suffix_cons .., rfl, .refl _⟩, rfl, rfl, fun _ => Or.inl rfl⟩
  intro w
  unfold ask
  split
  · exact Std.Refl.refl w
  · rename_i rest hs
    exact used hs
  · rename_i e rest hs
    exact used hs
  · exact Std.Refl.refl w

theorem dget_quiet (c : ClientIno) : Stays Quiet (dget c) :=
  refs_quiet fun r => { r with dentry := fun x => r.dentry x + if x = c then 1 else 0 }

theorem modifyVnode_offDisk (v : Nat) (f : Vnode → Vnode) : Stays SameDisk (modifyVnode v f) :=
  .modify fun _ => ⟨rfl, rfl⟩

theorem vnodeAt_still (v : Nat) : Stays Still (vnodeAt v) := by
  refine .get_bind fun w => ?_
  cases w.vnode v with
  | none => exact .throw _
  | some vn => exact .pure vn

theorem genericGetxattr_still (c : ClientIno) (a : ContAttr) : Stays Still (genericGetxattr c a) := by
  refine ask_still.bind fun r => ?_
  cases r with
  | some e => exact .pure _
  | none =>
    refine .get_bind fun w => ?_
    cases w.inode? c with
    | none => exact .pure _
    | some i =>
      dsimp only
      cases i.xattr a with
      | none => exact .pure _
      | some text => exact .ite (.pure _) (.pure _)

theorem getSetContData_still (c : ClientIno) (a : ContAttr) : Stays Still (getSetContData c a 0 0) := by
  unfold getSetContData
  rw [if_pos rfl]
  refine (genericGetxattr_still c a).bind fun r => ?_
  cases r <;> exact .pure _

theorem getContData_still (c : ClientIno) : Stays Still (getContData c) := by
  refine (getSetContData_still c .next).bind fun r => ?_
  cases r with
  | error e => exact .pure _
  | ok next =>
    refine (getSetContData_still c .prev).bind fun r => ?_
    cases r with
    | error e => exact .pure _
    | ok prev =>
      refine (getSetContData_still c .start).bind fun r => ?_
      cases r with
      | error e => exact .pure _
      | ok start =>
        refine (getSetContData_still c .len).bind fun r => ?_
        cases r <;> exact .pure _

theorem igetLocked_still (c : ClientIno) : Stays Still (igetLocked c) := by
  refine ask_still.bind fun r => ?_
  cases r with
  | some e => exact .pure _
  | none =>
    refine .bind (.modify fun w => ?_) fun _ => .pure _
    split
    · rename_i habsent
      refine ⟨⟨⟨rfl, rfl⟩, rfl, List.suffix_refl _, rfl, fun x => ?_⟩, rfl, rfl, fun x => ?_⟩
      · by_cases hx : x = c
        · exact Or.inr (hx ▸ habsent)
        · exact Or.inl (if_neg hx)
      · by_cases hx : x = c
        · exact Or.inr ⟨hx ▸ habsent, if_pos hx⟩
        · exact Or.inl (if_neg hx)
    · exact Std.Refl.refl w

theorem getNextInode_still (head : Nat) (prev : Option ClientIno) : Stays Still (getNextInode head prev) := by
  have hfound : ∀ c : ClientIno, Stays Still (do
      if ← igetLocked c then
        if (← get).icache c = .bad then return .error .eio else return .ok (some c)
      else
        throw .bug : Kern (Except Errno (Option ClientIno))) := by
    intro c
    refine (igetLocked_still c).bind fun r => .ite (.get_bind fun w => ?_) (.throw _)
    exact .ite (.pure _) (.pure _)
  unfold getNextInode
  cases prev with
  | none =>
    refine (vnodeAt_still head).bind fun vn => ?_
    cases vn.client with
    | none => exact .throw _
    | some c => exact hfound c
  | some c =>
    refine (getContData_still c).bind fun r => ?_
    cases r with
    | error e => exact .pure _
    | ok cd =>
      refine .ite (.pure _) (.get_bind fun w => ?_)
      cases findChunk w.pool (uinoToChunkId cd.next) with
      | none => exact .throw _
      | some chunk => exact hfound _

theorem totalSize_still : ∀ (fuel v : Nat) (prev : Option ClientIno) (total : Int), Stays Still (totalSize fuel v prev total)
  | 0, _, _, _ => .throw _
  | fuel + 1, v, prev, total => by
    refine (getNextInode_still v prev).bind fun r => ?_
    cases r with
    | error e => exact .pure _
    | ok next =>
      cases next with
      | none => exact .pure _
      | some c => exact .get_bind fun w => totalSize_still fuel v (some c) _

theorem copyUpInode_offDisk (v : Nat) (c : ClientIno) : Stays SameDisk (copyUpInode v c) := by
  refine .get_bind fun w => ?_
  cases w.inode? c with
  | none => exact .throw _
  | some i =>
    refine (modifyVnode_offDisk v _).bind fun _ => .get_bind fun w => ?_
    exact (offDisk (quiet (totalSize_still _ v none 0))).bind fun total => modifyVnode_offDisk v _

theorem startInode_offDisk (v : Nat) (c : ClientIno) (chunkId : Nat) : Stays SameDisk (startInode v c chunkId) :=
  (modifyVnode_offDisk v _).bind fun _ => copyUpInode_offDisk v c

theorem initDentry_still : Stays Still initDentry := by
  refine ask_still.bind fun r => ?_
  cases r with
  | some e => exact .pure _
  | none =>
    refine ask_still.bind fun r => ?_
    cases r <;> exact .pure _

end Calls

/-! ### Storing continuation data -/

section Stores
variable {R : World → World → Prop} [IsPreorder World R] {c : ClientIno} {a : ContAttr} (hask : Stays R ask)
include hask

theorem genericSetxattr_stays {text : List Char}
    (hset : ∀ w : World, R w { w with disk := w.disk.modify c fun i => i.setXattr a text }) : Stays R (genericSetxattr c a text) := by
  refine hask.bind fun r => ?_
  cases r with
  | some e => exact .pure _
  | none =>
    refine .get_bind fun w => ?_
    cases w.inode? c with
    | none => exact .pure _
    | some i => exact .bind (.modify hset) fun _ => .pure _

theorem getSetContData_stays {value : Nat}
    (hset : ∀ w : World, R w { w with disk := w.disk.modify c fun i => i.setXattr a (attrText value) }) :
    Stays R (getSetContData c a value 1) := by
  refine (genericSetxattr_stays hask hset).bind fun r => ?_
  cases r <;> exact .pure _

/-- What is kept by whatever changes one inode alone is kept where continuation data is stored at it. --/
theorem setContData_stays (hset : ∀ (w : World) a text, R w { w with disk := w.disk.modify c fun i => i.setXattr a text })
    (cd : ContData) : Stays R (setContData c cd) := by
  refine (getSetContData_stays hask fun w => hset w .next _).bind fun r => ?_
  cases r with
  | error e => exact .pure _
  | ok _ =>
    refine (getSetContData_stays hask fun w => hset w .prev _).bind fun r => ?_
    cases r with
    | error e => exact .pure _
    | ok _ =>
      refine (getSetContData_stays hask fun w => hset w .start _).bind fun r => ?_
      cases r with
      | error e => exact .pure _
      | ok _ =>
        refine (getSetContData_stays hask fun w => hset w .len _).bind fun r => ?_
        cases r <;> exact .pure _

end Stores

/-- A client's write takes the set-ID bits away and stores bytes, and nothing else. --/
theorem clientWrite_stays {R : World → World → Prop} [IsPreorder World R] (hask : Stays R ask) (file : ClientFile)
    (hstrip : ∀ w, R w { w with disk := w.disk.modify file.inode fun i => i.fileRemoveSuid w.env })
    (hstore : ∀ (w : World) start stored,
      R w { w with disk := w.disk.modify file.inode fun i => i.writeData start stored w.env.now })
    (data : List UInt8) (pos : Int) : Stays R (clientWrite file data pos) := by
  refine hask.bind fun o => ?_
  cases o with
  | some e => exact .pure _
  | none =>
    intro w
    dsimp only
    rw [bind_ok (get_apply w)]
    cases w.inode? file.inode with
    | none => exact Std.Refl.refl _
    | some i =>
      dsimp only
      generalize (if file.flags &&& oAppend = 0 then pos else (i.size : Int)) = start
      split
      · exact Std.Refl.refl _
      · split
        · exact Std.Refl.refl _
        · split
          · exact Std.Refl.refl _
          · refine IsTrans.trans _ _ _ (hstrip w) (hask.bind (fun o => ?_) _)
            cases o with
            | some e => exact .pure _
            | none => exact (Stays.modify fun w => hstore w _ _).bind fun _ => .pure _

end Chunkfs
