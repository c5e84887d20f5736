import Chunkfs.Theorems.Inversion
import Chunkfs.Theorems.Mkfs
import Chunkfs.Theorems.NewFile

/-! The chunks mkfs makes against the numbers chunkfs gives their inodes: a unified number has four bits for the
    chunk, the loop of `write_chunk_summaries` has no bound. -/

namespace Chunkfs
open Exec
variable {w w₁ w' : World} {d : Dentry} {vn : Vnode} {c : ClientIno} {t : Continuation}

/-! ### A new continuation and its predecessor -/

theorem makeUino_lt {k i : Nat} (h : i < 2 ^ 64) : makeUino k i < 2 ^ 64 := by
  unfold makeUino
  exact Nat.or_lt_two_pow (Nat.mod_lt _ (by decide)) h

/-- A continuation as it is read from disk. --/
structure Loaded (w : World) (t : Continuation) : Prop where
  data : w.contData? t.inode = some t.cd
  pool : t.chunkId ∈ w.pool
  uino : t.uino = makeUino t.chunkId t.inode.ino

theorem Loaded.warm (h : Loaded w t) (hw : Warm w w') : Loaded w' t :=
  ⟨hw.contData? h.data, hw.pool ▸ h.pool, h.uino⟩

theorem NextCont.loaded {o : Option Continuation} (hw : Warm w w') (h : NextCont w d vn w' o (some t)) : Loaded w' t := by
  cases h with
  | head cd hd hp => exact ⟨hd, hw.pool ▸ hp, rfl⟩
  | next prev c cd _ _ _ hd hp => exact ⟨hd, hw.pool ▸ hp, rfl⟩

theorem lastCont_ok (hv : w.vnode d.inode = some vn) {fuel : Nat} {o : Option Continuation}
    {r : Except Errno (Option Continuation)} (h : lastCont fuel d o w = .ok r w') (ho : ∀ t, o = some t → Loaded w t) :
    Warm w w' ∧ ∀ t, r = .ok (some t) → Loaded w' t := by
  induction fuel generalizing o w with
  | zero => cases h
  | succ fuel ih =>
    unfold lastCont at h
    simp only [bind_eq_ok] at h
    obtain ⟨r', w₁, hnext, h⟩ := h
    obtain ⟨hw₁, hr⟩ := getNextCont_ok hnext hv
    cases r' with
    | error e =>
      cases h
      exact ⟨hw₁, nofun⟩
    | ok o' =>
      cases o' with
      | none =>
        cases h
        refine ⟨hw₁, fun t ht => ?_⟩
        cases ht
        exact (ho t rfl).warm hw₁
      | some x =>
        obtain ⟨hw', hlast⟩ := ih (hw₁.vnode ▸ hv) h fun t ht => by
          cases ht
          exact (hr _ rfl).loaded hw₁
        exact ⟨hw₁.trans hw', hlast⟩

/-- A chain has been walked from an inode that is there. --/
theorem lastCont_head (hv : w.vnode d.inode = some vn) {fuel : Nat} (h : lastCont fuel d none w = .ok (.ok (some t)) w') :
    ∃ i, w.disk.inode d.client = some i := by
  cases fuel with
  | zero => cases h
  | succ fuel =>
    unfold lastCont at h
    simp only [bind_eq_ok] at h
    obtain ⟨r, w₁, hnext, h⟩ := h
    obtain ⟨hw₁, hr⟩ := getNextCont_ok hnext hv
    cases r with
    | error e => cases h
    | ok o =>
      cases o with
      | none => cases h
      | some x =>
        cases hr _ rfl with
        | head cd hd _ =>
          obtain ⟨i, hi⟩ := inode?_of_contData? hd
          exact ⟨i, hw₁.disk ▸ disk_of_inode? hi⟩

/-- The client file systems of a pool: their inodes are in its chunks and have numbers of 28 bits, a name leads to an
    inode, and the directories of continuations of chunk `k` lie in chunk `k`. --/
structure Serves (w : World) : Prop where
  inode : ∀ c i, w.disk.inode c = some i → c.chunk ∈ w.pool ∧ 0 < c.ino ∧ c.ino < 2 ^ 28
  ialloc : ∀ k, 0 < w.env.ialloc k ∧ w.env.ialloc k < 2 ^ 28
  path : ∀ p c, w.disk.path p = some c → ∃ i, w.disk.inode c = some i
  dir : ∀ k f n, w.disk.dir (contDir k f) = some n → n = k

/-- A new client inode `c` of the world `u` has been linked to `prev`, which has led to `w'`. --/
structure NewLink (w u w' : World) (prev : Continuation) (c : ClientIno) : Prop where
  chunk : c.chunk = (prev.chunkId + 1) % 2 ^ 64
  pool : c.chunk ∈ w.pool
  ino : 0 < c.ino ∧ c.ino < 2 ^ 28
  live : u.icache c = .live
  allocated : ∃ i, u.disk.inode c = some i
  path : u.disk.path (contPath c.chunk prev.chunkId (uinoToIno prev.uino)) = some c
  loaded : Loaded u prev
  prevIno : prev.inode.ino < 2 ^ 28
  apart : c ≠ prev.inode
  vnode : u.vnode = w.vnode
  samePool : u.pool = w.pool
  calm : Calm u
  warm : Warm (growStage u prev c 4 4) w'

theorem Loaded.openPath {u : World} {path : List Char} {mode : Nat} (h : Loaded w t)
    (ho : w.openPath path mode = .ok (c, u)) : Loaded u t := by
  refine ⟨?_, (openPath_env ho).2 ▸ h.pool, h.uino⟩
  obtain ⟨i, hi⟩ := inode?_of_contData? h.data
  have hdata := h.data
  unfold World.contData? at hdata ⊢
  rw [hi] at hdata
  rw [openPath_inode? ho hi]
  exact hdata

theorem createContinuation_links {file : File} {ppos : Int} {o : Opened} (hs : Serves w) (hcalm : Calm w)
    (hv : w.vnode file.dentry.inode = some vn) (h : createContinuation file ppos w = .ok (.ok o) w')
    (hnew : w.disk.inode o.file.inode = none) :
    ∃ prev w₁ u, lastCont w.env.fuel file.dentry none w = .ok (.ok (some prev)) w₁ ∧ NewLink w u w' prev o.file.inode := by
  unfold createContinuation at h
  simp only [bind_eq_ok] at h
  obtain ⟨s, w₀, hget, r, w₁, hlast, h⟩ := h
  cases hget
  obtain ⟨hw₁, hloaded⟩ := lastCont_ok hv hlast nofun
  cases r with
  | error e => cases h
  | ok r =>
    cases r with
    | none => cases h
    | some prev =>
      refine ⟨prev, w₁, ?_⟩
      simp only [bind_eq_ok] at h
      obtain ⟨_, w₂, hname, r, w₃, hopen, h⟩ := h
      have hw₂ := hw₁.trans (getname_ok hname)
      cases r with
      | error e =>
        simp only [bind_eq_ok] at h
        obtain ⟨_, w₄, -, hret⟩ := h
        cases hret
      | ok f =>
        obtain ⟨w₂', u, hw₂', ho, hu₃, -⟩ := filpOpen_ok hopen
        simp only [bind_eq_ok] at h
        obtain ⟨_, w₄, hdget, r₁, w₅, hset₁, r₂, w₆, hset₂, r₃, w₇, hload, h⟩ := h
        obtain ⟨hw₇, hcont⟩ := loadContinuation_ok hload
        cases r₃ with
        | error e => cases h
        | ok cont =>
          cases h
          obtain ⟨-, -, -, hpool⟩ := hcont cont rfl
          have hw := hw₂.trans hw₂'
          have hu₄ := hu₃.trans (dget_ok hdget)
          have hnew' : w.disk.inode f.inode = none := hnew
          rcases openPath_cases ho with ⟨hpath, -⟩ | ⟨-, hdir, hino, -, hu⟩
          · obtain ⟨i, hi⟩ := hs.path _ _ (hw.disk ▸ hpath)
            rw [hnew'] at hi
            cases hi
          rw [dirname_contPath, hw.disk] at hdir
          have hchunk : f.inode.chunk = (prev.chunkId + 1) % 2 ^ 64 := hs.dir _ _ _ hdir
          have hloaded₂ := (hloaded prev rfl).warm ((getname_ok hname).trans hw₂')
          obtain ⟨ip, hip⟩ := inode?_of_contData? hloaded₂.data
          have hipd : w.disk.inode prev.inode = some ip := hw.disk ▸ disk_of_inode? hip
          have hne : f.inode ≠ prev.inode := fun he => by
            rw [← he, hnew'] at hipd
            cases hipd
          have hlive : u.icache f.inode = .live := by simp [hu, World.withFile]
          have hinode : ∃ i, u.disk.inode f.inode = some i :=
            ⟨_, by simp [hu, World.withFile, Disk.setPath, Disk.insert]; rfl⟩
          have hcalm_u : Calm u := by
            have := hcalm.warm hw
            unfold Calm at this ⊢
            rw [(openPath_env ho).1]
            exact this
          have hwarm : Warm (growStage u prev f.inode 4 4) w₆ := by
            obtain ⟨i, hi⟩ := hinode
            have h₅ := (hu₄.stored f.inode (nextCd prev) 4).trans
              (setContData_ok (hcalm_u.warm hu₄).honest (hu₄.inode? (inode?_of_live hlive hi)) hset₁)
            have hip₅ := h₅.inode? ((World.inode?_stored_of_ne hne.symm (nextCd prev) 4).trans (openPath_inode? ho hip))
            rw [← hchunk] at hset₂
            exact (h₅.stored prev.inode (tailCd prev f.inode) 4).trans
              (setContData_ok ((show Calm (u.stored f.inode (nextCd prev) 4) from hcalm_u).warm h₅).honest hip₅ hset₂)
          refine ⟨u, hlast, hchunk, ?_, ?_, hlive, hinode, ?_, hloaded₂.openPath ho, (hs.inode _ _ hipd).2.2, hne, ?_, ?_, ?_,
            hwarm.trans hw₇⟩
          · rw [hwarm.pool] at hpool
            rw [hchunk, ← hw.pool, ← (openPath_env ho).2]
            exact hpool
          · have hal : w₂'.env.ialloc = w.env.ialloc := by rw [hw.env]
            dsimp only
            rw [hino, hal]
            exact hs.ialloc _
          · rw [hu, hchunk]
            simp [World.withFile, Disk.setPath]
          · rw [openPath_vnode ho, hw.vnode]
          · rw [(openPath_env ho).2, hw.pool]
          · exact hcalm_u

/-- The step of each walk from `prev`, as it is on disk, comes to `c`. --/
structure FoundAgain (w : World) (d : Dentry) (prev : Continuation) (c : ClientIno) : Prop where
  cont : ∃ cd k w', w.contData? prev.inode = some cd ∧ k.inode = c ∧
    getNextCont d (some { prev with cd := cd }) w = .ok (.ok (some k)) w'
  inode : ∃ w', getNextInode d.inode (some prev.inode) w = .ok (.ok (some c)) w'

theorem NewLink.reached {u : World} {prev : Continuation} (h : NewLink w u w' prev c)
    (hr : c.InRange) (hv : w.vnode d.inode = some vn) (hhead : c.uino ≠ vn.ino) : FoundAgain w' d prev c := by
  have hcalm : Calm w' := (show Calm (growStage u prev c 4 4) from h.calm).warm h.warm
  have hlive : w'.icache c = .live := h.warm.live h.live
  have hpool : c.chunk ∈ w'.pool := by
    rw [h.warm.pool]
    exact h.samePool ▸ h.pool
  have hv' : w'.vnode d.inode = some vn := by
    rw [h.warm.vnode]
    exact h.vnode ▸ hv
  have hpath : w'.disk.path (contPath c.chunk prev.chunkId (uinoToIno prev.uino)) = some c := by
    rw [h.warm.disk]
    exact h.path
  -- What is stored at the new inode and at its predecessor.
  obtain ⟨i, hi⟩ := h.allocated
  obtain ⟨ip, hip⟩ := inode?_of_contData? h.loaded.data
  have hipd : ip.contData? = some prev.cd := by
    have := h.loaded.data
    unfold World.contData? at this
    rwa [hip] at this
  have hprevLive : u.icache prev.inode = .live := live_of_inode? hip
  have huino : prev.uino < 2 ^ 64 := by
    rw [h.loaded.uino]
    exact makeUino_lt (h.prevIno.trans (by decide))
  have hd : w'.disk.contData? c = some (nextCd prev) := by
    rw [← contData?_of_live hlive]
    exact h.warm.contData? (contData?_growStage h.live hi h.apart huino)
  have hdp : w'.contData? prev.inode = some (tailCd prev c) := by
    refine h.warm.contData? ?_
    rw [contData?_of_live (show (growStage u prev c 4 4).icache prev.inode = .live from hprevLive)]
    show ((u.disk.modify c _).modify prev.inode _).contData? prev.inode = some (tailCd prev c)
    rw [Disk.contData?_modify_same (by rw [Disk.inode_modify_of_ne h.apart.symm]; exact disk_of_inode? hip)]
    have hfits := (ClientInode.fits_of_contData? hipd).withNext hr.uino_lt
    exact ClientInode.contData?_setFirst_next (k := 4) hipd hfits
  refine ⟨⟨tailCd prev c, Chunkfs.loaded c (nextCd prev) (uinoToChunkId c.uino), ?_⟩, ?_⟩
  · have hfinds := getNextCont_next hcalm.honest hv' { prev with cd := tailCd prev c } hhead hr.uino_ne_zero
      (by rw [show (tailCd prev c).next = c.uino from rfl, hr.chunkId_uino]; exact hpath) (Or.inl hlive)
      (by rw [show (tailCd prev c).next = c.uino from rfl, hr.chunkId_uino]; exact hpool) hd
    obtain ⟨w'', hm, -⟩ := hfinds.reads.calm hcalm
    exact ⟨w'', hdp, rfl, hm⟩
  · obtain ⟨w'', hm, -⟩ := (getNextInode_next hcalm.honest hdp hr rfl hpool hlive).calm hcalm
    exact ⟨w'', hm⟩

/-- Every pair of a chunk and an inode number has a unified number of its own that gives the pair back, and every new
    inode that is linked to a chain is found from its predecessor. --/
structure Addressable (ids : List Nat) : Prop where
  decodes : ∀ k ∈ ids, ∀ i, 0 < i → i < 2 ^ 28 → uinoToChunkId (makeUino k i) = k ∧ uinoToIno (makeUino k i) = i
  differ : ∀ k ∈ ids, ∀ k' ∈ ids, ∀ i i', 0 < i → i < 2 ^ 28 → 0 < i' → i' < 2 ^ 28 →
    makeUino k i = makeUino k' i' → k = k' ∧ i = i'
  reached : ∀ w w' file ppos vn o, w.pool = ids → Serves w → Calm w → w.vnode file.dentry.inode = some vn →
    vn.ino = file.dentry.client.uino → createContinuation file ppos w = .ok (.ok o) w' →
      w.disk.inode o.file.inode = none →
        ∃ prev w₁, lastCont w.env.fuel file.dentry none w = .ok (.ok (some prev)) w₁ ∧
          FoundAgain w' file.dentry prev o.file.inode

/-! ### At most fifteen chunks -/

section Fifteen
variable {ids : List Nat}

theorem Addressable.of_le (h : ∀ k ∈ ids, 1 ≤ k ∧ k ≤ 15) : Addressable ids where
  decodes k hk i _ hi := ⟨uinoToChunkId_makeUino (h k hk).2 hi, uinoToIno_makeUino (h k hk).2 hi⟩
  differ k hk k' hk' i i' _ hi _ hi' he := by
    have hr : ClientIno.InRange ⟨k, i⟩ := ⟨(h k hk).1, (h k hk).2, hi⟩
    have hr' : ClientIno.InRange ⟨k', i'⟩ := ⟨(h k' hk').1, (h k' hk').2, hi'⟩
    have hc := hr.uino_inj hr' he
    exact ⟨congrArg ClientIno.chunk hc, congrArg ClientIno.ino hc⟩
  reached w w' file ppos vn o hpool hs hcalm hv hino hcreate hnew := by
    obtain ⟨prev, w₁, u, hlast, hlink⟩ := createContinuation_links hs hcalm hv hcreate hnew
    have hr : o.file.inode.InRange :=
      ⟨(h _ (hpool ▸ hlink.pool)).1, (h _ (hpool ▸ hlink.pool)).2, hlink.ino.2⟩
    -- The head was there before, so the new inode has another number.
    obtain ⟨i, hi⟩ := lastCont_head hv hlast
    obtain ⟨hk, -, hlt⟩ := hs.inode _ _ hi
    have hrd : file.dentry.client.InRange := ⟨(h _ (hpool ▸ hk)).1, (h _ (hpool ▸ hk)).2, hlt⟩
    have hhead : o.file.inode.uino ≠ vn.ino := fun he => by
      rw [hino] at he
      rw [hr.uino_inj hrd he, hi] at hnew
      cases hnew
    exact ⟨prev, w₁, hlast, hlink.reached hr hv hhead⟩

theorem Addressable.le (h : Addressable ids) {k : Nat} (hk : k ∈ ids) : k ≤ 15 := by
  have hd := (h.decodes k hk 1 (by decide) (by decide)).1
  rw [uinoToChunkId_eq] at hd
  omega

end Fifteen

/-! ### The chunks of a device -/

/-- The identifiers of the chunk summaries written. --/
def Mkfs.chunkIds (m : Mkfs) : List Nat := m.written.map fun s => s.2.chunkId

/-- The state of a run that has returned. --/
def ran? : EStateM.Result Exit Mkfs Unit → Option Mkfs
  | .ok _ m => some m
  | .error _ _ => none

theorem ran?_eq_some {r : EStateM.Result Exit Mkfs Unit} {m : Mkfs} (h : ran? r = some m) : r = .ok () m := by
  unfold ran? at h
  split at h
  · cases h
    rfl
  · cases h

section Device
variable {f : RegFile} {maxBytes : Nat} {m : Mkfs}

/-- When mkfs runs to its end, the chunks are numbered from 1 on, and they are all that fit. --/
theorem mkfs_chunkIds (hn : f.size ≤ maxBytes) (hmax : maxBytes < 2 ^ 63) (hrun : mkfsMain ⟨f, maxBytes, []⟩ = .ok () m) :
    ∃ k, m.chunkIds = List.range' 1 k ∧ (k ≤ 15 ↔ f.size < 40962 + 16 * chunkSize) := by
  rcases mkfsMain_cases (f := f) hmax with ⟨-, m', hstop, -⟩ | ⟨k, m', h, ⟨hdone, hlast⟩ | hstop⟩
  · rw [hrun] at hstop
    cases hstop
  · rw [hrun] at hdone
    cases hdone
    refine ⟨k, ?_, ?_⟩
    · unfold Mkfs.chunkIds
      rw [h.wrote.written, List.map_map, List.range'_eq_map_range]
      exact List.map_congr_left fun i _ => Nat.add_comm i 1
    · have hlow := h.low
      have hend : (devOf f.size).endAt = f.size - 2 ∧ 2 ≤ f.size ∨
          (devOf f.size).endAt = 2 ^ 64 + f.size - 2 ∧ f.size < 2 := by
        rw [devOf_endAt]
        unfold Word.u64
        omega
      have hfits : ∀ i < k, 40960 + i * 10485760 + 10485760 - 1 < (devOf f.size).endAt := h.fits
      have hlast' : ¬40960 + k * 10485760 + 10485760 - 1 < (devOf f.size).endAt := hlast
      have hlow' : 40960 + k * 10485760 < 2 ^ 63 + 2 ^ 62 := hlow
      generalize (devOf f.size).endAt = e at hend hfits hlast'
      unfold chunkSize
      constructor
      · intro hle
        omega
      · intro hlt
        by_contra hgt
        have := hfits 15 (by omega)
        omega
  · rw [hrun] at hstop
    cases hstop

theorem addressable_iff (hn : f.size ≤ maxBytes) (hmax : maxBytes < 2 ^ 63) (hrun : mkfsMain ⟨f, maxBytes, []⟩ = .ok () m) :
    Addressable m.chunkIds ↔ f.size < 40962 + 16 * chunkSize := by
  obtain ⟨k, hids, hk⟩ := mkfs_chunkIds hn hmax hrun
  rw [hids, ← hk]
  constructor
  · intro h
    by_contra hlt
    have := h.le (k := 16) (List.mem_range'_1.mpr ⟨by decide, by omega⟩)
    omega
  · intro hle
    refine .of_le fun j hj => ?_
    have := List.mem_range'_1.mp hj
    omega

/-- Fifteen chunks. --/
theorem addressable_fifteen : ∃ m, mkfsMain ⟨blankFile 167813121, 2 ^ 40, []⟩ = .ok () m ∧ m.chunkIds = List.range' 1 15 ∧
    Addressable m.chunkIds := by
  have hids : (ran? (mkfsMain ⟨blankFile 167813121, 2 ^ 40, []⟩)).map Mkfs.chunkIds = some (List.range' 1 15) := by
    decide +kernel
  obtain ⟨m, hm, hids⟩ := Option.map_eq_some_iff.mp hids
  have hrun := ran?_eq_some hm
  exact ⟨m, hrun, hids, (addressable_iff (by decide) (by decide) hrun).mpr (by decide)⟩

/-- One byte more gives the sixteenth, whose inodes are taken for inodes of chunk 0. --/
theorem sixteenth_not_addressable : ∃ m, mkfsMain ⟨blankFile 167813122, 2 ^ 40, []⟩ = .ok () m ∧ 16 ∈ m.chunkIds ∧
    uinoToChunkId (makeUino 16 20) = 0 ∧ ¬Addressable m.chunkIds := by
  have hids : (ran? (mkfsMain ⟨blankFile 167813122, 2 ^ 40, []⟩)).map Mkfs.chunkIds = some (List.range' 1 16) := by
    decide +kernel
  obtain ⟨m, hm, hids⟩ := Option.map_eq_some_iff.mp hids
  have hmem : 16 ∈ m.chunkIds := by
    rw [hids]
    decide
  exact ⟨m, ran?_eq_some hm, hmem, by decide +kernel, fun h => absurd (h.le hmem) (by decide)⟩

end Device

end Chunkfs
