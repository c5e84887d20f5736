import Chunkfs.Theorems.Sizes

/-! What a call that has returned has read: its result is that of the disk, whatever the script was. -/

namespace Chunkfs
open Exec
variable {w w' : World} {c : ClientIno}

/-! ### Single calls -/

theorem ask_ok {r : Option Errno} (h : ask w = .ok r w') : Warm w w' := by
  unfold ask at h
  split at h
  · cases h
    exact Warm.refl w
  · rename_i rest hs
    cases h
    exact ⟨rfl, rfl, rfl, rfl, by rw [hs]; exact List.suffix_cons .., rfl, fun _ => Or.inl rfl⟩
  · rename_i e rest hs
    cases h
    exact ⟨rfl, rfl, rfl, rfl, by rw [hs]; exact List.suffix_cons .., rfl, fun _ => Or.inl rfl⟩
  · cases h

/-- A change of references. --/
theorem warm_refs (w : World) (f : Refs) : Warm w { w with refs := f } :=
  ⟨rfl, rfl, rfl, rfl, List.suffix_refl _, rfl, fun _ => Or.inl rfl⟩

theorem dget_ok {u : Unit} (h : dget c w = .ok u w') : Warm w w' := by
  cases h
  exact warm_refs w _

theorem dput_ok {u : Unit} (h : dput c w = .ok u w') : Warm w w' := by
  cases h
  exact warm_refs w _

theorem kzallocCont_ok {r : Bool} (h : kzallocCont w = .ok r w') : Warm w w' := by
  unfold kzallocCont at h
  simp only [bind_eq_ok] at h
  obtain ⟨o, w₁, hask, h⟩ := h
  refine (ask_ok hask).trans ?_
  cases o with
  | some e =>
    cases h
    exact Warm.refl _
  | none =>
    cases h
    exact warm_refs _ _

theorem kfreeCont_ok {u : Unit} (h : kfreeCont w = .ok u w') : Warm w w' := by
  cases h
  exact warm_refs w _

theorem getname_ok {u : Unit} (h : getname w = .ok u w') : Warm w w' := by
  unfold getname at h
  simp only [bind_eq_ok] at h
  obtain ⟨o, w₁, hask, h⟩ := h
  cases o with
  | some e => cases h
  | none =>
    cases h
    exact ask_ok hask

theorem kernPath_ok {path : List Char} {r : Except Errno ClientIno} (h : kernPath path w = .ok r w') :
    Warm w w' ∧ ∀ c, r = .ok c → w.disk.path path = some c := by
  unfold kernPath at h
  simp only [bind_eq_ok] at h
  obtain ⟨o, w₁, hask, h⟩ := h
  have hw := ask_ok hask
  cases o with
  | some e =>
    cases h
    exact ⟨hw, nofun⟩
  | none =>
    simp only [bind_eq_ok] at h
    obtain ⟨s, w₂, hget, h⟩ := h
    cases hget
    cases hp : w₁.disk.path path with
    | none =>
      simp only [hp] at h
      cases h
      exact ⟨hw, nofun⟩
    | some c =>
      simp only [hp, bind_eq_ok] at h
      obtain ⟨_, w₃, hmod, _, w₄, hdget, hret⟩ := h
      cases hmod
      cases hret
      refine ⟨hw.trans ((readIn_warm c).trans (dget_ok hdget)), fun c' hc' => ?_⟩
      cases hc'
      rw [← hw.disk]
      exact hp

theorem filpOpen_error {path : List Char} {flags mode : Nat} {e : Errno} (h : filpOpen path flags mode w = .ok (.error e) w') :
    Warm w w' ∧ (Honest w → ∃ w₁ e', Warm w w₁ ∧ w₁.openPath path mode = .error e') := by
  unfold filpOpen at h
  simp only [bind_eq_ok] at h
  obtain ⟨r, w₁, hask, h⟩ := h
  have hw := ask_ok hask
  cases r with
  | some e =>
    cases h
    refine ⟨hw, fun hh => ?_⟩
    cases (ask_reads hh).eq_of_ok hask
  | none =>
    simp only [bind_eq_ok] at h
    obtain ⟨s, w₂, hget, h⟩ := h
    cases hget
    cases ho : w₁.openPath path mode with
    | error e =>
      simp only [ho] at h
      cases h
      exact ⟨hw, fun _ => ⟨_, e, hw, ho⟩⟩
    | ok r =>
      simp only [ho, bind_eq_ok] at h
      obtain ⟨_, w₂, hset, f, w₃, hopen, hret⟩ := h
      cases hret

theorem filpOpen_ok {path : List Char} {flags mode : Nat} {f : ClientFile} (h : filpOpen path flags mode w = .ok (.ok f) w') :
    ∃ w₁ u, Warm w w₁ ∧ w₁.openPath path mode = .ok (f.inode, u) ∧ Warm u w' ∧ f = ⟨f.inode, 0, flags⟩ := by
  unfold filpOpen at h
  simp only [bind_eq_ok] at h
  obtain ⟨r, w₁, hask, h⟩ := h
  cases r with
  | some e => cases h
  | none =>
    simp only [bind_eq_ok] at h
    obtain ⟨s, w₂, hget, h⟩ := h
    cases hget
    cases ho : w₁.openPath path mode with
    | error e =>
      simp only [ho] at h
      cases h
    | ok p =>
      obtain ⟨c, u⟩ := p
      simp only [ho, bind_eq_ok] at h
      obtain ⟨_, w₃, hset, f', w₄, hopen, h⟩ := h
      cases hset
      cases hopen
      cases h
      exact ⟨w₁, u, ask_ok hask, ho, warm_refs u _, rfl⟩

/-! ### Continuation data -/

theorem getSetContData_ok {a : ContAttr} {r : Except Errno Nat} (h : getSetContData c a 0 0 w = .ok r w') :
    Warm w w' ∧ ∀ v, r = .ok v → ∃ i, w'.inode? c = some i ∧ i.attr? a = some v := by
  unfold getSetContData genericGetxattr at h
  simp only [↓reduceIte, bind_eq_ok] at h
  obtain ⟨r', w₁, ⟨o, w₂, hask, hget⟩, h⟩ := h
  have hw := ask_ok hask
  cases o with
  | some e =>
    cases hget
    cases h
    exact ⟨hw, fun v hv => by cases hv⟩
  | none =>
    simp only [bind_eq_ok] at hget
    obtain ⟨s, w₃, hg, hget⟩ := hget
    cases hg
    cases hi : w₂.inode? c with
    | none =>
      simp only [hi] at hget
      cases hget
      cases h
      exact ⟨hw, fun v hv => by cases hv⟩
    | some i =>
      simp only [hi] at hget
      cases hx : i.xattr a with
      | none =>
        simp only [hx] at hget
        cases hget
        cases h
        exact ⟨hw, fun v hv => by cases hv⟩
      | some text =>
        simp only [hx] at hget
        split at hget
        · rename_i hlen
          cases hget
          cases h
          refine ⟨hw, fun v hv => ⟨i, hi, ?_⟩⟩
          cases hv
          simp [ClientInode.attr?, hx, hlen]
        · cases hget
          cases h
          exact ⟨hw, fun v hv => by cases hv⟩

theorem getContData_ok {r : Except Errno ContData} (h : getContData c w = .ok r w') :
    Warm w w' ∧ ∀ cd, r = .ok cd → w'.contData? c = some cd := by
  unfold getContData at h
  simp only [bind_eq_ok] at h
  obtain ⟨r₁, w₁, h₁, h⟩ := h
  obtain ⟨hw₁, hd₁⟩ := getSetContData_ok h₁
  cases r₁ with
  | error e =>
    cases h
    exact ⟨hw₁, nofun⟩
  | ok next =>
  simp only [bind_eq_ok] at h
  obtain ⟨r₂, w₂, h₂, h⟩ := h
  obtain ⟨hw₂, hd₂⟩ := getSetContData_ok h₂
  cases r₂ with
  | error e =>
    cases h
    exact ⟨hw₁.trans hw₂, nofun⟩
  | ok prev =>
  simp only [bind_eq_ok] at h
  obtain ⟨r₃, w₃, h₃, h⟩ := h
  obtain ⟨hw₃, hd₃⟩ := getSetContData_ok h₃
  cases r₃ with
  | error e =>
    cases h
    exact ⟨(hw₁.trans hw₂).trans hw₃, nofun⟩
  | ok start =>
  simp only [bind_eq_ok] at h
  obtain ⟨r₄, w₄, h₄, h⟩ := h
  obtain ⟨hw₄, hd₄⟩ := getSetContData_ok h₄
  cases r₄ with
  | error e =>
    cases h
    exact ⟨((hw₁.trans hw₂).trans hw₃).trans hw₄, nofun⟩
  | ok len =>
    cases h
    refine ⟨((hw₁.trans hw₂).trans hw₃).trans hw₄, fun cd hcd => ?_⟩
    cases hcd
    -- The four reads are of one inode, which stays in memory.
    obtain ⟨i, hi, hnext⟩ := hd₁ next rfl
    obtain ⟨i₂, hi₂, hprev⟩ := hd₂ prev rfl
    obtain ⟨i₃, hi₃, hstart⟩ := hd₃ start rfl
    obtain ⟨i₄, hi₄, hlen⟩ := hd₄ len rfl
    rw [hw₂.inode? hi] at hi₂
    cases hi₂
    rw [(hw₂.trans hw₃).inode? hi] at hi₃
    cases hi₃
    have hi' := ((hw₂.trans hw₃).trans hw₄).inode? hi
    rw [hi'] at hi₄
    cases hi₄
    unfold World.contData?
    rw [hi']
    simp only [ClientInode.contData?, hnext, hprev, hstart, hlen]

theorem findChunk_some {pool : List Nat} {k x : Nat} (h : findChunk pool k = some x) : x = k ∧ k ∈ pool := by
  have hx : x = k := by simpa using List.find?_some h
  exact ⟨hx, hx ▸ List.mem_of_find?_eq_some h⟩

theorem loadContinuation_ok {chunkId : Nat} {r : Except Errno Continuation} (h : loadContinuation c chunkId w = .ok r w') :
    Warm w w' ∧ ∀ k, r = .ok k → ∃ cd, k = loaded c cd chunkId ∧ w'.contData? c = some cd ∧ chunkId ∈ w.pool := by
  unfold loadContinuation at h
  simp only [bind_eq_ok] at h
  obtain ⟨b, w₁, halloc, h⟩ := h
  have hw₁ := kzallocCont_ok halloc
  cases b with
  | false =>
    cases h
    exact ⟨hw₁, nofun⟩
  | true =>
    simp only [↓reduceIte, bind_eq_ok] at h
    obtain ⟨s, w₂, hget, h⟩ := h
    cases hget
    cases hf : findChunk w₁.pool chunkId with
    | none => simp [hf] at h
    | some x =>
      simp only [hf, bind_eq_ok] at h
      obtain ⟨r', w₃, hdata, h⟩ := h
      obtain ⟨hw₃, hd⟩ := getContData_ok hdata
      cases r' with
      | error e =>
        simp only [bind_eq_ok] at h
        obtain ⟨_, w₄, hfree, hret⟩ := h
        cases hret
        exact ⟨(hw₁.trans hw₃).trans (kfreeCont_ok hfree), nofun⟩
      | ok cd =>
        cases h
        refine ⟨hw₁.trans hw₃, fun k hk => ⟨cd, ?_, hd cd rfl, hw₁.pool ▸ (findChunk_some hf).2⟩⟩
        cases hk
        rfl

/-! ### Steps of the walks -/

section Steps
variable {d : Dentry} {vn : Vnode}

theorem vnodeAt_ok {v : Nat} (h : vnodeAt v w = .ok vn w') : w.vnode v = some vn ∧ w' = w := by
  unfold vnodeAt at h
  simp only [bind_eq_ok] at h
  obtain ⟨s, w₁, hget, h⟩ := h
  cases hget
  cases hv : w.vnode v with
  | none => simp [hv] at h
  | some x =>
    simp only [hv] at h
    cases h
    exact ⟨rfl, rfl⟩

/-- What `chunkfs_get_next_cont` gives after `prev`. --/
inductive NextCont (w : World) (d : Dentry) (vn : Vnode) (w' : World) : Option Continuation → Option Continuation → Prop
  | head (cd : ContData) (hd : w'.contData? d.client = some cd) (hp : uinoToChunkId vn.ino ∈ w.pool) :
      NextCont w d vn w' none (some (loaded d.client cd (uinoToChunkId vn.ino)))
  | stop (prev : Continuation) (h : prev.cd.next = vn.ino ∨ prev.cd.next = 0) : NextCont w d vn w' (some prev) none
  | next (prev : Continuation) (c : ClientIno) (cd : ContData) (hhead : prev.cd.next ≠ vn.ino)
      (hzero : prev.cd.next ≠ 0)
      (hpath : w.disk.path (contPath (uinoToChunkId prev.cd.next) prev.chunkId (uinoToIno prev.uino)) = some c)
      (hd : w'.contData? c = some cd) (hp : uinoToChunkId prev.cd.next ∈ w.pool) :
      NextCont w d vn w' (some prev) (some (loaded c cd (uinoToChunkId prev.cd.next)))

theorem getNextCont_ok {prev : Option Continuation} {r : Except Errno (Option Continuation)}
    (h : getNextCont d prev w = .ok r w') (hv : w.vnode d.inode = some vn) :
    Warm w w' ∧ ∀ o, r = .ok o → NextCont w d vn w' prev o := by
  unfold getNextCont at h
  simp only [bind_eq_ok] at h
  obtain ⟨vn', w₁, hvn, h⟩ := h
  obtain ⟨hv', rfl⟩ := vnodeAt_ok hvn
  rw [hv] at hv'
  cases hv'
  cases prev with
  | none =>
    simp only [bind_eq_ok] at h
    obtain ⟨_, w₂, hdget, r', w₃, hload, h⟩ := h
    have hw₂ := dget_ok hdget
    obtain ⟨hw₃, hd⟩ := loadContinuation_ok hload
    cases r' with
    | error e =>
      cases h
      exact ⟨hw₂.trans hw₃, nofun⟩
    | ok k =>
      cases h
      obtain ⟨cd, rfl, hcd, hp⟩ := hd k rfl
      refine ⟨hw₂.trans hw₃, fun o ho => ?_⟩
      cases ho
      exact .head cd hcd (hw₂.pool ▸ hp)
  | some prev =>
    dsimp only at h
    split at h
    · rename_i hend
      cases h
      refine ⟨Warm.refl _, fun o ho => ?_⟩
      cases ho
      exact .stop prev (Or.inl hend)
    · rename_i hhead
      split at h
      · rename_i hend
        cases h
        refine ⟨Warm.refl _, fun o ho => ?_⟩
        cases ho
        exact .stop prev (Or.inr hend)
      · rename_i hzero
        simp only [bind_eq_ok] at h
        obtain ⟨_, w₂, hname, r', w₃, hpath, h⟩ := h
        have hw₂ := getname_ok hname
        obtain ⟨hw₃, hp⟩ := kernPath_ok hpath
        cases r' with
        | error e =>
          cases h
          exact ⟨hw₂.trans hw₃, nofun⟩
        | ok c =>
          simp only [bind_eq_ok] at h
          obtain ⟨_, w₄, hdget, _, w₅, hdput, r'', w₆, hload, h⟩ := h
          have hw₅ := ((hw₂.trans hw₃).trans (dget_ok hdget)).trans (dput_ok hdput)
          obtain ⟨hw₆, hd⟩ := loadContinuation_ok hload
          cases r'' with
          | error e =>
            cases h
            exact ⟨hw₅.trans hw₆, nofun⟩
          | ok k =>
            cases h
            obtain ⟨cd, rfl, hcd, hpool⟩ := hd k rfl
            refine ⟨hw₅.trans hw₆, fun o ho => ?_⟩
            cases ho
            exact .next prev c cd hhead hzero (hw₂.disk ▸ hp c rfl) hcd (hw₅.pool ▸ hpool)

end Steps

end Chunkfs
