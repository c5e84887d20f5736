import Chunkfs.Theorems.Inversion
import Chunkfs.Theorems.Io
import Chunkfs.Theorems.Memory

/-! Where a file position leads, in any chain: by what is on disk and what can be read in. What a call that has
    returned has used is what is located, and a call that returns uses what is located. -/

namespace Chunkfs
open Exec Word

/-- What the walk by path comes to after `prev`. --/
inductive Onward (w : World) (d : Dentry) (n : Nat) : Option Continuation → Option Continuation → Prop
  | head (cd : ContData) (hd : w.disk.contData? d.client = some cd) (hp : uinoToChunkId n ∈ w.pool) :
      Onward w d n none (some (loaded d.client cd (uinoToChunkId n)))
  | stop (prev : Continuation) (h : prev.cd.next = n ∨ prev.cd.next = 0) : Onward w d n (some prev) none
  | next (prev : Continuation) (c : ClientIno) (cd : ContData) (hhead : prev.cd.next ≠ n)
      (hzero : prev.cd.next ≠ 0)
      (hpath : w.disk.path (contPath (uinoToChunkId prev.cd.next) prev.chunkId (uinoToIno prev.uino)) = some c)
      (hr : w.Readable c) (hd : w.disk.contData? c = some cd) (hp : uinoToChunkId prev.cd.next ∈ w.pool) :
      Onward w d n (some prev) (some (loaded c cd (uinoToChunkId prev.cd.next)))

/-- The walk from `prev` on comes to `k`, the first continuation that covers the position. --/
inductive Locates (w : World) (d : Dentry) (n : Nat) (p : Int) : Option Continuation → Continuation → Prop
  | here {prev : Option Continuation} {k : Continuation} (h : Onward w d n prev (some k))
      (hc : k.cd.covers p = true) : Locates w d n p prev k
  | on {prev : Option Continuation} {x k : Continuation} (h : Onward w d n prev (some x))
      (hc : x.cd.covers p = false) (rest : Locates w d n p (some x) k) : Locates w d n p prev k

/-- The walk from `prev` on ends with `t`. --/
inductive Tail (w : World) (d : Dentry) (n : Nat) : Option Continuation → Continuation → Prop
  | stop {t : Continuation} (h : Onward w d n (some t) none) : Tail w d n (some t) t
  | on {prev : Option Continuation} {x t : Continuation} (h : Onward w d n prev (some x))
      (rest : Tail w d n (some x) t) : Tail w d n prev t

section Steps
variable {w w₁ w' : World} {d : Dentry} {vn : Vnode} {prev o : Option Continuation} {k t : Continuation} {c : ClientIno}
  {p : Int} {n : Nat}

theorem stored_of_contData? {cd : ContData} (h : w.contData? c = some cd) :
    w.disk.contData? c = some cd ∧ w.icache c = .live := by
  unfold World.contData? at h
  cases hi : w.inode? c with
  | none =>
    rw [hi] at h
    cases h
  | some i =>
    rw [hi] at h
    have hlive := live_of_inode? hi
    rw [← contData?_of_live hlive]
    exact ⟨by rw [World.contData?, hi]; exact h, hlive⟩

/-- What can be read in then could be read in before. --/
theorem CachesMore.of_readable (h : CachesMore w w') (hr : w'.Readable c) : w.Readable c := by
  rcases h c with hc | hc
  · exact hr.imp (hc ▸ ·) (hc ▸ ·)
  · exact Or.inr hc

theorem Onward.of_later (hd : SameDisk w w') (hc : CachesMore w w') (h : Onward w' d n prev o) : Onward w d n prev o := by
  cases h with
  | head cd hcd hp => exact .head cd (hd.disk ▸ hcd) (hd.pool ▸ hp)
  | stop prev h => exact .stop prev h
  | next prev c cd hhead hzero hpath hr hcd hp =>
    exact .next prev c cd hhead hzero (hd.disk ▸ hpath) (hc.of_readable hr) (hd.disk ▸ hcd) (hd.pool ▸ hp)

/-- There is one way on. --/
theorem Onward.unique {o' : Option Continuation} (h : Onward w d n prev o) (h' : Onward w d n prev o') : o = o' := by
  cases h with
  | head cd hd hp =>
    cases h' with
    | head cd' hd' hp' => rw [Option.some.inj (hd.symm.trans hd')]
  | stop prev h =>
    cases h' with
    | stop => rfl
    | next prev c cd hhead hzero => exact absurd h (not_or.mpr ⟨hhead, hzero⟩)
  | next prev c cd hhead hzero hpath hr hd hp =>
    cases h' with
    | stop _ h => exact absurd h (not_or.mpr ⟨hhead, hzero⟩)
    | next _ c' cd' _ _ hpath' _ hd' _ =>
      obtain rfl := Option.some.inj (hpath.symm.trans hpath')
      rw [Option.some.inj (hd.symm.trans hd')]

theorem Onward.warm (hw : Warm w w') (h : Onward w d n prev o) : Onward w' d n prev o := by
  cases h with
  | head cd hd hp => exact .head cd (hw.disk ▸ hd) (hw.pool ▸ hp)
  | stop prev h => exact .stop prev h
  | next prev c cd hhead hzero hpath hr hd hp =>
    exact .next prev c cd hhead hzero (hw.disk ▸ hpath) (hw.readable hr) (hw.disk ▸ hd) (hw.pool ▸ hp)

/-- A step that has been made. --/
theorem NextCont.onward (hw : Warm w w') (h : NextCont w d vn w' prev o) : Onward w d vn.ino prev o := by
  cases h with
  | head cd hd hp => exact .head cd (hw.disk ▸ (stored_of_contData? hd).1) hp
  | stop prev h => exact .stop prev h
  | next prev c cd hhead hzero hpath hd hp =>
    obtain ⟨hd', hlive⟩ := stored_of_contData? hd
    exact .next prev c cd hhead hzero hpath (hw.caches.of_readable (Or.inl hlive)) (hw.disk ▸ hd') hp

theorem NextCont.live (h : NextCont w d vn w' prev (some k)) : w'.icache k.inode = .live := by
  cases h with
  | head cd hd hp => exact (stored_of_contData? hd).2
  | next prev c cd hhead hzero hpath hd hp => exact (stored_of_contData? hd).2

/-- A step that can be made is made. --/
theorem Onward.reads (hh : Honest w) (hv : w.vnode d.inode = some vn) (hlive : w.icache d.client = .live)
    (h : Onward w d vn.ino prev o) : Reads (getNextCont d prev) w (.ok o) := by
  cases h with
  | head cd hd hp => exact (getNextCont_head hh hv hp (by rw [contData?_of_live hlive]; exact hd) hlive).reads
  | stop prev h => exact getNextCont_end hv h
  | next prev c cd hhead hzero hpath hr hd hp => exact (getNextCont_next hh hv prev hhead hzero hpath hr hp hd).reads

theorem Locates.of_later (hd : SameDisk w w') (hc : CachesMore w w') (h : Locates w' d n p prev k) :
    Locates w d n p prev k := by
  induction h with
  | here h hcov => exact .here (h.of_later hd hc) hcov
  | on h hcov _ ih => exact .on (h.of_later hd hc) hcov ih

theorem Locates.unique {k' : Continuation} (h : Locates w d n p prev k) (h' : Locates w d n p prev k') : k = k' := by
  induction h with
  | here hx hc =>
    cases h' with
    | here hx' hc' => exact Option.some.inj (hx.unique hx')
    | on hx' hc' _ =>
      obtain rfl := Option.some.inj (hx.unique hx')
      rw [hc] at hc'
      cases hc'
  | on hx hc _ ih =>
    cases h' with
    | here hx' hc' =>
      obtain rfl := Option.some.inj (hx.unique hx')
      rw [hc] at hc'
      cases hc'
    | on hx' hc' hrest =>
      obtain rfl := Option.some.inj (hx.unique hx')
      exact ih hrest

theorem Tail.warm (hw : Warm w w') (h : Tail w d n prev t) : Tail w' d n prev t := by
  induction h with
  | stop h => exact .stop (h.warm hw)
  | on h _ ih => exact .on (h.warm hw) ih

theorem Tail.of_later (hd : SameDisk w w') (hc : CachesMore w w') (h : Tail w' d n prev t) : Tail w d n prev t := by
  induction h with
  | stop h => exact .stop (h.of_later hd hc)
  | on h _ ih => exact .on (h.of_later hd hc) ih

theorem Tail.unique {t' : Continuation} (h : Tail w d n prev t) (h' : Tail w d n prev t') : t = t' := by
  induction h with
  | stop hx =>
    cases h' with
    | stop _ => rfl
    | on hx' _ => cases hx.unique hx'
  | on hx _ ih =>
    cases h' with
    | stop hx' => cases hx.unique hx'
    | on hx' hrest =>
      obtain rfl := Option.some.inj (hx.unique hx')
      exact ih hrest

end Steps

section Searches
variable {w w₁ w' : World} {d : Dentry} {vn : Vnode} {prev : Option Continuation} {k t : Continuation} {p : Int}
  {n : Nat} {file : File} {o : Opened}

/-- What a search has found. --/
theorem contAtOffsetLoop_ok (hv : w.vnode d.inode = some vn) {fuel : Nat} {junk : Bool} {r : Except Errno Continuation}
    (h : contAtOffsetLoop fuel d p prev junk w₁ = .ok r w') (hw : Warm w w₁) :
    Warm w w' ∧ ∀ k, r = .ok k → Locates w d vn.ino p prev k ∧ w'.icache k.inode = .live := by
  induction fuel generalizing prev junk w₁ with
  | zero => cases h
  | succ fuel ih =>
    unfold contAtOffsetLoop at h
    simp only [bind_eq_ok] at h
    obtain ⟨r', w₂, hnext, h⟩ := h
    obtain ⟨hw₂, hr⟩ := getNextCont_ok hnext (hw.vnode ▸ hv)
    have hwarm := hw.trans hw₂
    cases r' with
    | error e =>
      cases h
      exact ⟨hwarm, nofun⟩
    | ok next =>
      cases next with
      | none =>
        cases h
        exact ⟨hwarm, nofun⟩
      | some x =>
        have hx : Onward w d vn.ino prev (some x) := ((hr _ rfl).onward hw₂).of_later hw.sameDisk hw.caches
        cases hc : x.cd.covers p with
        | true =>
          simp only [hc, ↓reduceIte] at h
          cases h
          refine ⟨hwarm, fun k hk => ?_⟩
          cases hk
          exact ⟨.here hx hc, (hr _ rfl).live⟩
        | false =>
          simp only [hc, Bool.false_eq_true, ↓reduceIte] at h
          obtain ⟨hw', hfound⟩ := ih h hwarm
          exact ⟨hw', fun k hk => ⟨.on hx hc (hfound k hk).1, (hfound k hk).2⟩⟩

/-- A step that returns has gone on. --/
theorem Onward.taken {o : Option Continuation} {r : Except Errno (Option Continuation)} (h : Onward w d vn.ino prev o)
    (hh : Honest w) (hv : w.vnode d.inode = some vn) (hlive : w.icache d.client = .live) (hw : Warm w w₁)
    (hr : getNextCont d prev w₁ = .ok r w') : r = .ok o ∧ Warm w w' :=
  ⟨((h.warm hw).reads (hh.warm hw) (hw.vnode ▸ hv) (hw.live hlive)).eq_of_ok hr,
    hw.trans (getNextCont_ok hr (hw.vnode ▸ hv)).1⟩

/-- A search that returns finds what is located. --/
theorem Locates.found (hh : Honest w) (hv : w.vnode d.inode = some vn) (hlive : w.icache d.client = .live)
    (hk : Locates w d vn.ino p prev k) {fuel : Nat} {junk : Bool} {r : Except Errno Continuation}
    (h : contAtOffsetLoop fuel d p prev junk w₁ = .ok r w') (hw : Warm w w₁) : r = .ok k := by
  induction hk generalizing fuel junk w₁ with
  | here hx hc =>
    cases fuel with
    | zero => cases h
    | succ fuel =>
      unfold contAtOffsetLoop at h
      simp only [bind_eq_ok] at h
      obtain ⟨r', w₂, hnext, h⟩ := h
      obtain ⟨rfl, -⟩ := hx.taken hh hv hlive hw hnext
      simp only [hc, ↓reduceIte] at h
      cases h
      rfl
  | on hx hc _ ih =>
    cases fuel with
    | zero => cases h
    | succ fuel =>
      unfold contAtOffsetLoop at h
      simp only [bind_eq_ok] at h
      obtain ⟨r', w₂, hnext, h⟩ := h
      obtain ⟨rfl, hw₂⟩ := hx.taken hh hv hlive hw hnext
      simp only [hc, Bool.false_eq_true, ↓reduceIte] at h
      exact ih h hw₂

/-- A search that returns ends with `ENOENT` where the chain ends and nothing on it is located. --/
theorem Tail.missed (hh : Honest w) (hv : w.vnode d.inode = some vn) (hlive : w.icache d.client = .live)
    (ht : Tail w d vn.ino prev t) (hnone : ∀ k, ¬Locates w d vn.ino p prev k) {fuel : Nat} {junk : Bool}
    {r : Except Errno Continuation} (h : contAtOffsetLoop fuel d p prev junk w₁ = .ok r w') (hw : Warm w w₁) :
    r = .error .enoent := by
  induction ht generalizing fuel junk w₁ with
  | stop hx =>
    cases fuel with
    | zero => cases h
    | succ fuel =>
      unfold contAtOffsetLoop at h
      simp only [bind_eq_ok] at h
      obtain ⟨r', w₂, hnext, h⟩ := h
      obtain ⟨rfl, -⟩ := hx.taken hh hv hlive hw hnext
      cases h
      rfl
  | on hx _ ih =>
    rename_i x _ _
    cases fuel with
    | zero => cases h
    | succ fuel =>
      unfold contAtOffsetLoop at h
      simp only [bind_eq_ok] at h
      obtain ⟨r', w₂, hnext, h⟩ := h
      obtain ⟨rfl, hw₂⟩ := hx.taken hh hv hlive hw hnext
      have hc : x.cd.covers p = false := Bool.eq_false_iff.mpr fun hc => hnone x (.here hx hc)
      simp only [hc, Bool.false_eq_true, ↓reduceIte] at h
      exact ih (fun k hk => hnone k (.on hx hc hk)) h hw₂

theorem dentryOpen_ok {c : ClientIno} {flags : Nat} {r : Except Errno ClientFile} (h : dentryOpen c flags w = .ok r w') :
    Warm w w' ∧ ∀ f, r = .ok f → f = ⟨c, 0, flags⟩ := by
  unfold dentryOpen at h
  simp only [bind_eq_ok] at h
  obtain ⟨r', w₁, hask, h⟩ := h
  have hw₁ := ask_ok hask
  cases r' with
  | some e =>
    cases h
    exact ⟨hw₁, nofun⟩
  | none =>
    cases h
    refine ⟨hw₁.trans (warm_refs w₁ _), fun f hf => ?_⟩
    cases hf
    rfl

/-- Opening has used what is located. --/
theorem openContFile_ok (hv : w.vnode d.inode = some vn) (hfile : file.dentry = d) {r : Except Errno Opened}
    (h : openContFile file p w = .ok r w') :
    Warm w w' ∧ ∀ o, r = .ok o → ∃ k, Locates w d vn.ino p none k ∧ o = openedAt k file.flags p ∧ w'.icache k.inode = .live := by
  unfold openContFile getContAtOffset at h
  simp only [hfile, bind_eq_ok] at h
  obtain ⟨r', w₁, ⟨s, w₀, hget, hsearch⟩, h⟩ := h
  cases hget
  obtain ⟨hw₁, hfound⟩ := contAtOffsetLoop_ok hv hsearch (Warm.refl _)
  cases r' with
  | error e =>
    cases h
    exact ⟨hw₁, nofun⟩
  | ok k =>
    obtain ⟨hk, hlive⟩ := hfound k rfl
    simp only [bind_eq_ok] at h
    obtain ⟨r'', w₂, hopen, h⟩ := h
    obtain ⟨hw₂, hf⟩ := dentryOpen_ok hopen
    cases r'' with
    | error e =>
      cases h
      exact ⟨hw₁.trans hw₂, nofun⟩
    | ok f =>
      cases h
      cases hf f rfl
      refine ⟨hw₁.trans hw₂, fun o ho => ?_⟩
      cases ho
      exact ⟨k, hk, rfl, hw₂.live hlive⟩

/-- Opening uses what is located, if it returns. --/
theorem Locates.opened (hh : Honest w) (hv : w.vnode d.inode = some vn) (hlive : w.icache d.client = .live)
    (hk : Locates w d vn.ino p none k) (hfile : file.dentry = d) {r : Except Errno Opened}
    (h : openContFile file p w = .ok r w') : r = .ok (openedAt k file.flags p) := by
  unfold openContFile getContAtOffset at h
  simp only [hfile, bind_eq_ok] at h
  obtain ⟨r', w₁, ⟨s, w₀, hget, hsearch⟩, h⟩ := h
  cases hget
  obtain ⟨hw₁, -⟩ := contAtOffsetLoop_ok hv hsearch (Warm.refl _)
  obtain rfl := hk.found hh hv hlive hsearch (Warm.refl _)
  simp only [bind_eq_ok] at h
  obtain ⟨r'', w₂, hopen, h⟩ := h
  obtain rfl := (dentryOpen_reads (hh.warm hw₁) k.inode file.flags).eq_of_ok hopen
  cases h
  rfl

/-- Where nothing is located, opening ends with `ENOENT` at the end of the chain, if it returns. --/
theorem Tail.unopened (hh : Honest w) (hv : w.vnode d.inode = some vn) (hlive : w.icache d.client = .live)
    (ht : Tail w d vn.ino none t) (hnone : ∀ k, ¬Locates w d vn.ino p none k) (hfile : file.dentry = d)
    {r : Except Errno Opened} (h : openContFile file p w = .ok r w') : r = .error .enoent := by
  unfold openContFile getContAtOffset at h
  simp only [hfile, bind_eq_ok] at h
  obtain ⟨r', w₁, ⟨s, w₀, hget, hsearch⟩, h⟩ := h
  cases hget
  obtain rfl := ht.missed hh hv hlive hnone hsearch (Warm.refl _)
  cases h
  rfl

/-- What the loop that looks for the last element has found. --/
theorem lastCont_tail (hv : w.vnode d.inode = some vn) {fuel : Nat} {r : Except Errno (Option Continuation)}
    (h : lastCont fuel d prev w₁ = .ok r w') (hw : Warm w w₁) (hlive : ∀ t, prev = some t → w₁.icache t.inode = .live) :
    Warm w w' ∧ ∀ t, r = .ok (some t) → Tail w d vn.ino prev t ∧ w'.icache t.inode = .live := by
  induction fuel generalizing prev w₁ with
  | zero => cases h
  | succ fuel ih =>
    unfold lastCont at h
    simp only [bind_eq_ok] at h
    obtain ⟨r', w₂, hnext, h⟩ := h
    obtain ⟨hw₂, hr⟩ := getNextCont_ok hnext (hw.vnode ▸ hv)
    have hwarm := hw.trans hw₂
    cases r' with
    | error e =>
      cases h
      exact ⟨hwarm, nofun⟩
    | ok next =>
      have hx := ((hr _ rfl).onward hw₂).of_later hw.sameDisk hw.caches
      cases next with
      | none =>
        cases h
        refine ⟨hwarm, fun t ht => ?_⟩
        cases ht
        exact ⟨.stop hx, hw₂.live (hlive t rfl)⟩
      | some x =>
        obtain ⟨hw', htail⟩ := ih h hwarm fun t ht => by
          cases ht
          exact (hr _ rfl).live
        exact ⟨hw', fun t ht => ⟨.on hx (htail t ht).1, (htail t ht).2⟩⟩

theorem Onward.stored (h : Onward w d n prev (some k)) : w.disk.contData? k.inode = some k.cd := by
  cases h with
  | head cd hd hp => exact hd
  | next prev c cd hhead hzero hpath hr hd hp => exact hd

/-- The loop that looks for the last element finds it, if it returns. --/
theorem Tail.last (hh : Honest w) (hv : w.vnode d.inode = some vn) (hlive : w.icache d.client = .live)
    (ht : Tail w d vn.ino prev t) {fuel : Nat} {r : Except Errno (Option Continuation)}
    (h : lastCont fuel d prev w₁ = .ok r w') (hw : Warm w w₁) : r = .ok (some t) := by
  induction ht generalizing fuel w₁ with
  | stop hx =>
    cases fuel with
    | zero => cases h
    | succ fuel =>
      unfold lastCont at h
      simp only [bind_eq_ok] at h
      obtain ⟨r', w₂, hnext, h⟩ := h
      obtain ⟨rfl, -⟩ := hx.taken hh hv hlive hw hnext
      cases h
      rfl
  | on hx _ ih =>
    cases fuel with
    | zero => cases h
    | succ fuel =>
      unfold lastCont at h
      simp only [bind_eq_ok] at h
      obtain ⟨r', w₂, hnext, h⟩ := h
      obtain ⟨rfl, hw₂⟩ := hx.taken hh hv hlive hw hnext
      exact ih h hw₂

theorem Locates.stored (h : Locates w d n p prev k) : w.disk.contData? k.inode = some k.cd := by
  induction h with
  | here h _ => exact h.stored
  | on _ _ _ ih => exact ih

theorem Locates.covers (h : Locates w d n p prev k) : k.cd.covers p = true := by
  induction h with
  | here _ hc => exact hc
  | on _ _ _ ih => exact ih

theorem Tail.stored (h : Tail w d n prev t) (hprev : ∀ x, prev = some x → w.disk.contData? x.inode = some x.cd) :
    w.disk.contData? t.inode = some t.cd := by
  induction h with
  | stop _ => exact hprev _ rfl
  | on hx _ ih =>
    refine ih fun y hy => ?_
    cases hy
    exact hx.stored

end Searches

/-! ### Growing -/

/-- The path of the continuation after `t`. --/
def afterPath (t : Continuation) : List Char := contPath ((t.chunkId + 1) % 2 ^ 64) t.chunkId (uinoToIno t.uino)

/-- What is stored at the tail when `c` follows it. --/
def beforeCd (t : Continuation) (c : ClientIno) : ContData :=
  { t.cd with next := makeUino ((t.chunkId + 1) % 2 ^ 64) c.ino }

/-- `chunkfs_create_continuation` has opened `c` in the world `u` and linked it to `t`, which has led to `w'`. --/
structure Grew (w : World) (d : Dentry) (vn : Vnode) (p : Int) (o : Opened) (w' : World) (t : Continuation)
    (c : ClientIno) (u : World) : Prop where
  tail : Tail w d vn.ino none t
  opened : ∃ w₁, Warm w w₁ ∧ w₁.openPath (afterPath t) contMode = .ok (c, u)
  live : u.icache c = .live ∧ u.icache t.inode = .live
  warm : Warm ((u.stored c (nextCd t) 4).stored t.inode (beforeCd t c) 4) w'
  result : ∃ cd, w'.contData? c = some cd ∧ o = openedAt (loaded c cd ((t.chunkId + 1) % 2 ^ 64)) oCreatRdwr p

/-- An inode that is cached without its data stays so. --/
theorem Warm.inode?_none {w w' : World} {c : ClientIno} (hw : Warm w w') (hc : w.icache c ≠ .absent)
    (hi : w.inode? c = none) : w'.inode? c = none := by
  have hcache : w'.icache c = w.icache c := by
    rcases hw.icache c with h | ⟨h, -⟩
    · exact h
    · exact absurd h hc
  unfold World.inode? at hi ⊢
  rwa [hcache, hw.disk]

theorem Warm.cached {w w' : World} {c : ClientIno} (hw : Warm w w') (hc : w.icache c ≠ .absent) : w'.icache c ≠ .absent := by
  rcases hw.icache c with h | ⟨h, -⟩
  · exact h ▸ hc
  · exact absurd h hc

/-- A file that has been opened is cached. --/
theorem openPath_not_absent {w u : World} {path : List Char} {mode : Nat} {c : ClientIno}
    (ho : w.openPath path mode = .ok (c, u)) : u.icache c ≠ .absent := by
  rcases openPath_cases ho with ⟨-, rfl⟩ | ⟨-, -, -, -, rfl⟩
  · unfold World.readIn
    split
    · simp
    · assumption
  · simp [World.withFile]

theorem openPath_honest {w u : World} {path : List Char} {mode : Nat} {c : ClientIno} (hh : Honest w)
    (ho : w.openPath path mode = .ok (c, u)) : Honest u := fun e he => hh e (by
  rw [← (openPath_env ho).1]
  exact he)

theorem getSetContData_blank {w w' : World} {c : ClientIno} {a : ContAttr} {value : Nat} {r : Except Errno Nat}
    (hc : w.icache c ≠ .absent) (hi : w.inode? c = none) (h : getSetContData c a value 1 w = .ok r w') :
    Warm w w' ∧ ∃ e, r = .error e := by
  unfold getSetContData genericSetxattr at h
  rw [if_neg Nat.one_ne_zero] at h
  simp only [bind_eq_ok] at h
  obtain ⟨r₁, w₁, ⟨r₂, w₂, hask, h₂⟩, h₁⟩ := h
  have hw := ask_ok hask
  cases r₂ with
  | some e =>
    cases h₂
    cases h₁
    exact ⟨hw, e, rfl⟩
  | none =>
    simp only [bind_eq_ok] at h₂
    obtain ⟨s, w₃, hget, h₂⟩ := h₂
    cases hget
    simp only [hw.inode?_none hc hi] at h₂
    cases h₂
    cases h₁
    exact ⟨hw, .eio, rfl⟩

/-- Nothing is stored at an inode that has not been read in. --/
theorem setContData_blank {w w' : World} {c : ClientIno} {cd : ContData} {r : Except Errno Unit}
    (hc : w.icache c ≠ .absent) (hi : w.inode? c = none) (h : setContData c cd w = .ok r w') : Warm w w' := by
  unfold setContData at h
  rw [bind_eq_ok] at h
  obtain ⟨r₁, w₁, hset, h⟩ := h
  obtain ⟨hw, e, rfl⟩ := getSetContData_blank hc hi hset
  cases h
  exact hw

/-- The steps of growing, when it has given a client file. --/
theorem createContinuation_ok {w w' : World} {d : Dentry} {vn : Vnode} {p : Int} {file : File} {o : Opened}
    (hv : w.vnode d.inode = some vn) (hfile : file.dentry = d) (h : createContinuation file p w = .ok (.ok o) w') :
    ∃ t c u w₁ w₂ w₃ w₄ r₁ r₂ cd, Tail w d vn.ino none t ∧ w₁.icache t.inode = .live ∧ Warm w w₁ ∧
      w₁.openPath (afterPath t) contMode = .ok (c, u) ∧ Warm u w₂ ∧ setContData c (nextCd t) w₂ = .ok r₁ w₃ ∧
      setContData t.inode (beforeCd t c) w₃ = .ok r₂ w₄ ∧ Warm w₄ w' ∧ w'.contData? c = some cd ∧
      o = openedAt (loaded c cd ((t.chunkId + 1) % 2 ^ 64)) oCreatRdwr p := by
  unfold createContinuation at h
  simp only [bind_eq_ok, hfile] at h
  obtain ⟨s, w₀, hget, r, w₁, hlast, h⟩ := h
  cases hget
  obtain ⟨hw₁, htail⟩ := lastCont_tail hv hlast (Warm.refl _) nofun
  cases r with
  | error e => cases h
  | ok r =>
    cases r with
    | none => cases h
    | some t =>
      obtain ⟨ht, htlive⟩ := htail t rfl
      simp only [bind_eq_ok] at h
      obtain ⟨_, w₂, hname, r, w₃, hopen, h⟩ := h
      have hw₂ := hw₁.trans (getname_ok hname)
      cases r with
      | error e =>
        simp only [bind_eq_ok] at h
        obtain ⟨_, w₄, -, hret⟩ := h
        cases hret
      | ok f =>
        obtain ⟨w₂', u, hw₂', ho, hu₃, hf⟩ := filpOpen_ok hopen
        simp only [bind_eq_ok] at h
        obtain ⟨_, w₄, hdget, r₁, w₅, hset₁, r₂, w₆, hset₂, r₃, w₇, hload, h⟩ := h
        obtain ⟨hw₇, hcont⟩ := loadContinuation_ok hload
        cases r₃ with
        | error e => cases h
        | ok cont =>
          cases h
          obtain ⟨cd, rfl, hcd, -⟩ := hcont cont rfl
          refine ⟨t, f.inode, u, w₂', w₄, w₅, w₆, r₁, r₂, cd, ht, hw₂'.live ((getname_ok hname).live htlive),
            hw₂.trans hw₂', ho, hu₃.trans (dget_ok hdget), hset₁, hset₂, hw₇, hcd, ?_⟩
          rw [hf]
          rfl

/-- What growing has done, when it has given a client file. --/
theorem createContinuation_grew {w w' : World} {d : Dentry} {vn : Vnode} {p : Int} {file : File} {o : Opened}
    (hh : Honest w) (hv : w.vnode d.inode = some vn) (hfile : file.dentry = d)
    (h : createContinuation file p w = .ok (.ok o) w') : ∃ t c u, Grew w d vn p o w' t c u := by
  obtain ⟨t, c, u, w₁, w₂, w₃, w₄, r₁, r₂, cd, ht, htlive, hw₁, ho, hu₂, hset₁, hset₂, hw', hcd, rfl⟩ :=
    createContinuation_ok hv hfile h
  have hhu : Honest u := openPath_honest (hh.warm hw₁) ho
  have htu : u.icache t.inode = .live := openPath_live ho htlive
  obtain ⟨it, hit⟩ : ∃ i, u.disk.inode t.inode = some i := by
    obtain ⟨i, hi, -⟩ := Disk.inode_of_contData? (ht.stored nofun)
    exact ⟨i, openPath_inode ho (hw₁.disk ▸ hi)⟩
  have hstored : ∃ i, (u.stored c (nextCd t) 4).inode? t.inode = some i := by
    by_cases hc : t.inode = c
    · rw [hc] at htu hit ⊢
      exact ⟨_, World.inode?_setDisk_modify _ (inode?_of_live htu hit)⟩
    · exact ⟨it, inode?_of_live htu ((Disk.inode_modify_of_ne hc).trans hit)⟩
  cases hi : u.inode? c with
  | some i =>
    have h₃ := (hu₂.stored c (nextCd t) 4).trans (setContData_ok (hhu.warm hu₂) (hu₂.inode? hi) hset₁)
    obtain ⟨j, hj⟩ := hstored
    have h₄ := (h₃.stored t.inode (beforeCd t c) 4).trans
      (setContData_ok ((show Honest (u.stored c (nextCd t) 4) from hhu).warm h₃) (h₃.inode? hj) hset₂)
    exact ⟨t, c, u, ht, ⟨w₁, hw₁, ho⟩, ⟨live_of_inode? hi, htu⟩, h₄.trans hw', cd, hcd, rfl⟩
  | none =>
    -- The new file could not be read in, so its data could not be loaded either.
    have hblank : u.icache c ≠ .absent := openPath_not_absent ho
    have hne : t.inode ≠ c := fun he => by
      rw [← he, inode?_of_live htu hit] at hi
      cases hi
    have h₃ := hu₂.trans (setContData_blank (hu₂.cached hblank) (hu₂.inode?_none hblank hi) hset₁)
    have h₄ := (h₃.stored t.inode (beforeCd t c) 4).trans
      (setContData_ok (hhu.warm h₃) (h₃.inode? (inode?_of_live htu hit)) hset₂)
    obtain ⟨i, hi'⟩ := inode?_of_contData? hcd
    have hnone : w'.inode? c = none := (h₄.trans hw').inode?_none hblank (by
      rw [World.inode?_stored_of_ne hne.symm]
      exact hi)
    rw [hnone] at hi'
    cases hi'

theorem Grew.of_warm {w w₀ w' u : World} {d : Dentry} {vn : Vnode} {p : Int} {o : Opened} {t : Continuation} {c : ClientIno}
    (hw : Warm w w₀) (h : Grew w₀ d vn p o w' t c u) : Grew w d vn p o w' t c u where
  tail := h.tail.of_later hw.sameDisk hw.caches
  opened := by
    obtain ⟨w₁, hw₁, ho⟩ := h.opened
    exact ⟨w₁, hw.trans hw₁, ho⟩
  live := h.live
  warm := h.warm
  result := h.result

theorem Grew.honest {w w' u : World} {d : Dentry} {vn : Vnode} {p : Int} {o : Opened} {t : Continuation} {c : ClientIno}
    (hh : Honest w) (h : Grew w d vn p o w' t c u) : Honest w' := by
  obtain ⟨w₁, hw₁, ho⟩ := h.opened
  have hu : Honest u := openPath_honest (hh.warm hw₁) ho
  have hstored : Honest ((u.stored c (nextCd t) 4).stored t.inode (beforeCd t c) 4) := hu
  exact hstored.warm h.warm

/-- The chain of `d` has an end, and a file can be opened after it. --/
def CanGrow (w : World) (d : Dentry) (n : Nat) : Prop :=
  ∃ t c u, Tail w d n none t ∧ w.openPath (afterPath t) contMode = .ok (c, u)

theorem CanGrow.warm {w w' : World} {d : Dentry} {n : Nat} (hw : Warm w w') (h : CanGrow w d n) : CanGrow w' d n := by
  obtain ⟨t, c, u, ht, ho⟩ := h
  obtain ⟨u', hu', -⟩ := hw.openPath_ok ho
  exact ⟨t, c, u', ht.warm hw, hu'⟩

theorem Warm.of_openPath {w w' u : World} (hw : Warm w w') {path : List Char} {mode : Nat} {c : ClientIno}
    (ho : w'.openPath path mode = .ok (c, u)) : ∃ u', w.openPath path mode = .ok (c, u') ∧ Warm u' u := by
  rcases hw.openPath path mode with ⟨e, -, he⟩ | ⟨c', u₁, u', hu₁, hu', hwarm⟩
  · rw [he] at ho
    cases ho
  · rw [hu'] at ho
    cases ho
    exact ⟨u₁, hu₁, hwarm⟩

/-- Growing that has failed has only read, and without a failing client it could not have worked. --/
theorem createContinuation_error {w w' : World} {d : Dentry} {vn : Vnode} {p : Int} {file : File} {e : Errno}
    (hv : w.vnode d.inode = some vn) (hfile : file.dentry = d) (h : createContinuation file p w = .ok (.error e) w') :
    Warm w w' ∧ (Honest w → w.icache d.client = .live → ¬CanGrow w d vn.ino) := by
  unfold createContinuation at h
  simp only [bind_eq_ok, hfile] at h
  obtain ⟨s, w₀, hget, r, w₁, hlast, h⟩ := h
  cases hget
  obtain ⟨hw₁, htail⟩ := lastCont_tail hv hlast (Warm.refl _) nofun
  have hfound : Honest w → w.icache d.client = .live → ∀ t, Tail w d vn.ino none t → r = .ok (some t) :=
    fun hh hlive t ht => ht.last hh hv hlive hlast (Warm.refl _)
  cases r with
  | error e =>
    cases h
    refine ⟨hw₁, fun hh hlive ⟨t, c, u, ht, _⟩ => ?_⟩
    cases hfound hh hlive t ht
  | ok r =>
    cases r with
    | none => cases h
    | some t =>
      simp only [bind_eq_ok] at h
      obtain ⟨_, w₂, hname, r, w₃, hopen, h⟩ := h
      have hw₂ := hw₁.trans (getname_ok hname)
      cases r with
      | error e =>
        unfold putContinuation at h
        simp only [bind_eq_ok] at h
        obtain ⟨_, w₄, ⟨_, w₅, hput, hfree⟩, hret⟩ := h
        cases hret
        obtain ⟨hw₃, hstuck⟩ := filpOpen_error hopen
        refine ⟨((hw₂.trans hw₃).trans (dput_ok hput)).trans (kfreeCont_ok hfree), fun hh hlive ⟨t', c, u, ht, ho⟩ => ?_⟩
        cases hfound hh hlive t' ht
        obtain ⟨w₄, e', hw₄, he⟩ := hstuck (hh.warm hw₂)
        obtain ⟨u', hu', -⟩ := (hw₂.trans hw₄).openPath_ok ho
        cases he.symm.trans hu'
      | ok f =>
        simp only [bind_eq_ok] at h
        obtain ⟨_, w₄, -, _, w₅, -, _, w₆, -, r₃, w₇, -, h⟩ := h
        cases r₃ <;> cases h

/-- Where the segment begins that is `c` after `t`; the path may lead back to `t`. --/
def afterStart (t : Continuation) (c : ClientIno) : Nat := if c = t.inode then t.cd.start else (nextCd t).start

theorem attr?_start_setFirst {i : ClientInode} {cd : ContData} (h : cd.start < 2 ^ 64) :
    (i.setFirst 4 cd).attr? .start = some cd.start := by
  rw [ClientInode.attr?_setFirst (a := .start) h, if_pos (by simp [ContAttr.order])]
  rfl

/-- What growing opens. --/
theorem Grew.opens {w w' u : World} {d : Dentry} {vn : Vnode} {p : Int} {o : Opened} {t : Continuation} {c : ClientIno}
    (h : Grew w d vn p o w' t c u) :
    ∃ k, o = openedAt k oCreatRdwr p ∧ k.inode = c ∧ k.cd.start = afterStart t c := by
  obtain ⟨cd, hcd, rfl⟩ := h.result
  obtain ⟨hd, -⟩ := stored_of_contData? hcd
  rw [h.warm.disk] at hd
  obtain ⟨j, hj, hjd⟩ := Disk.inode_of_contData? hd
  have hstart : j.attr? .start = some cd.start := ClientInode.contData?_eq_some.mp hjd .start
  refine ⟨_, rfl, rfl, Option.some.inj (hstart.symm.trans ?_)⟩
  obtain ⟨it, -, hitd⟩ := Disk.inode_of_contData? (h.tail.stored nofun)
  have hlt : t.cd.start < 2 ^ 64 := ClientInode.fits_of_contData? hitd .start
  unfold afterStart
  by_cases hc : c = t.inode
  · subst hc
    rw [if_pos rfl]
    obtain ⟨i, -, rfl⟩ := Option.map_eq_some_iff.mp ((Disk.inode_modify_same ..).symm.trans hj)
    exact attr?_start_setFirst hlt
  · rw [if_neg hc]
    obtain ⟨i, -, rfl⟩ := Option.map_eq_some_iff.mp
      ((Disk.inode_modify_same ..).symm.trans ((Disk.inode_modify_of_ne hc).symm.trans hj))
    exact attr?_start_setFirst (Nat.mod_lt _ (by decide))

end Chunkfs
