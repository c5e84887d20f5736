import Mathlib.Data.List.Chain
import Chunkfs.Theorems.Warm

/-! The walk along a chain by `chunkfs_get_next_cont`. `Follows` says that successive calls give the
    continuations of a list and then stop; the loops of `cont.c` are described by it, whatever data the
    elements carry. `Linked` is a chain as it lies on disk, and it is followed if its inodes can be read in. -/

namespace Chunkfs
open Exec

/-! ### Reading continuation data -/

theorem Disk.inode_of_contData? {d : Disk} {c : ClientIno} {cd : ContData} (h : d.contData? c = some cd) :
    ∃ i, d.inode c = some i ∧ i.contData? = some cd := by
  unfold Disk.contData? at h
  split at h
  · cases h
  · exact ⟨_, by assumption, h⟩

/-- The continuation data of an inode in memory. --/
def World.contData? (w : World) (c : ClientIno) : Option ContData :=
  match w.inode? c with
  | none => none
  | some i => i.contData?

section Data
variable {w w' : World} {c : ClientIno} {cd : ContData}

theorem Warm.contData? (hw : Warm w w') (h : w.contData? c = some cd) : w'.contData? c = some cd := by
  unfold World.contData? at h ⊢
  cases hi : w.inode? c with
  | none => rw [hi] at h; cases h
  | some i =>
    rw [hi] at h
    rw [hw.inode? hi]
    exact h

theorem disk_of_inode? {i : ClientInode} (h : w.inode? c = some i) : w.disk.inode c = some i := by
  unfold World.inode? at h
  split at h
  · exact h
  · cases h

theorem inode?_of_contData? {cd : ContData} (h : w.contData? c = some cd) : ∃ i, w.inode? c = some i := by
  unfold World.contData? at h
  cases hi : w.inode? c with
  | none => simp [hi] at h
  | some i => exact ⟨i, rfl⟩

theorem live_of_inode? {i : ClientInode} (h : w.inode? c = some i) : w.icache c = .live := by
  unfold World.inode? at h
  split at h
  · assumption
  · cases h

theorem inode?_of_live {i : ClientInode} (hl : w.icache c = .live) (hi : w.disk.inode c = some i) :
    w.inode? c = some i := by
  simp only [World.inode?, hl, hi]

theorem contData?_of_live (h : w.icache c = .live) : w.contData? c = w.disk.contData? c := by
  have hi : w.inode? c = w.disk.inode c := by
    unfold World.inode?
    rw [h]
  exact congrArg (fun o : Option ClientInode => match o with | none => none | some i => i.contData?) hi

theorem getSetContData_reads (h : Honest w) {a : ContAttr} (hd : w.contData? c = some cd) :
    Reads (getSetContData c a 0 0) w (.ok (cd.value a)) := by
  unfold World.contData? at hd
  cases hi : w.inode? c with
  | none => rw [hi] at hd; cases hd
  | some i =>
    rw [hi] at hd
    have ha := ClientInode.contData?_eq_some.mp hd a
    unfold ClientInode.attr? at ha
    cases hx : i.xattr a with
    | none => rw [hx] at ha; cases ha
    | some text =>
      simp only [hx, Option.ite_none_right_eq_some, Option.some.injEq] at ha
      unfold getSetContData
      rw [if_pos rfl]
      refine Reads.bind (a := .ok text) ?_ fun w₁ h₁ => ?_
      · refine (ask_reads h).bind fun w₁ h₁ => get_bind_reads ?_
        simp only [h₁.inode? hi, hx, if_pos ha.1]
        exact .pure _ w₁
      · simp only [ha.2]
        exact .pure _ w₁

theorem getContData_reads (h : Honest w) (hd : w.contData? c = some cd) : Reads (getContData c) w (.ok cd) := by
  unfold getContData
  refine (getSetContData_reads h hd).bind fun w₁ h₁ => ?_
  refine (getSetContData_reads (h.warm h₁) (h₁.contData? hd)).bind fun w₂ h₂ => ?_
  have h₂ := h₁.trans h₂
  refine (getSetContData_reads (h.warm h₂) (h₂.contData? hd)).bind fun w₃ h₃ => ?_
  have h₃ := h₂.trans h₃
  refine (getSetContData_reads (h.warm h₃) (h₃.contData? hd)).bind fun w₄ _ => ?_
  exact .pure _ w₄

theorem findChunk_of_mem {pool : List Nat} {k : Nat} (h : k ∈ pool) : findChunk pool k = some k := by
  unfold findChunk
  cases hf : pool.find? (· == k) with
  | none => exact absurd (List.find?_eq_none.mp hf k h) (by simp)
  | some x =>
    have := List.find?_some hf
    rw [beq_iff_eq] at this
    rw [this]

/-- The continuation that `load_continuation` makes. --/
def loaded (c : ClientIno) (cd : ContData) (chunkId : Nat) : Continuation :=
  { inode := c, cd := cd, chunkId := chunkId, uino := makeUino chunkId c.ino }

theorem loadContinuation_reads (h : Honest w) {chunkId : Nat} (hp : chunkId ∈ w.pool)
    (hd : w.contData? c = some cd) : Reads (loadContinuation c chunkId) w (.ok (loaded c cd chunkId)) := by
  unfold loadContinuation
  refine (kzallocCont_reads h).bind fun w₁ h₁ => get_bind_reads ?_
  rw [h₁.pool, findChunk_of_mem hp]
  refine (getContData_reads (h.warm h₁) (h₁.contData? hd)).bind fun w₂ _ => ?_
  exact .pure _ w₂

end Data

/-! ### One step -/

section Step
variable {w : World} {d : Dentry} {vn : Vnode}

theorem getNextCont_head (h : Honest w) (hv : w.vnode d.inode = some vn) {cd : ContData}
    (hp : uinoToChunkId vn.ino ∈ w.pool) (hd : w.contData? d.client = some cd) (hlive : w.icache d.client = .live) :
    Finds (getNextCont d none) w (.ok (some (loaded d.client cd (uinoToChunkId vn.ino)))) d.client := by
  refine Reads.finds ?_ hlive
  unfold getNextCont
  refine (vnodeAt_reads hv).bind fun w₁ h₁ => ?_
  refine (dget_reads d.client).bind fun w₂ h₂ => ?_
  have h₂ := h₁.trans h₂
  refine (loadContinuation_reads (h.warm h₂) (h₂.pool ▸ hp) (h₂.contData? hd)).bind fun w₃ _ => ?_
  exact .pure _ w₃

/-- The walk stops at an element whose `next` is 0 or the head again. --/
theorem getNextCont_end (hv : w.vnode d.inode = some vn) {prev : Continuation}
    (hn : prev.cd.next = vn.ino ∨ prev.cd.next = 0) : Reads (getNextCont d (some prev)) w (.ok none) := by
  unfold getNextCont
  refine (vnodeAt_reads hv).bind fun w₁ _ => ?_
  by_cases h₁ : prev.cd.next = vn.ino
  · simp only [h₁, ↓reduceIte]
    exact .pure _ w₁
  · simp only [hn.resolve_left h₁]
    split <;> exact .pure _ w₁

theorem getNextCont_next (h : Honest w) (hv : w.vnode d.inode = some vn) (prev : Continuation) {c : ClientIno}
    {cd : ContData} (hhead : prev.cd.next ≠ vn.ino) (hzero : prev.cd.next ≠ 0)
    (hpath : w.disk.path (contPath (uinoToChunkId prev.cd.next) prev.chunkId (uinoToIno prev.uino)) = some c)
    (hc : w.Readable c) (hp : uinoToChunkId prev.cd.next ∈ w.pool) (hd : w.disk.contData? c = some cd) :
    Finds (getNextCont d (some prev)) w (.ok (some (loaded c cd (uinoToChunkId prev.cd.next)))) c := by
  unfold getNextCont
  refine .of_reads (vnodeAt_reads hv) fun w₁ h₁ => ?_
  simp only [hhead, hzero, ↓reduceIte]
  refine .of_reads (getname_reads (h.warm h₁)) fun w₂ h₂ => ?_
  have h₂ := h₁.trans h₂
  refine (kernPath_finds (h.warm h₂) (h₂.disk ▸ hpath) (h₂.readable hc)).bind fun w₃ h₃ hlive => ?_
  have h₃ := h₂.trans h₃
  refine Reads.finds ?_ hlive
  refine (dget_reads c).bind fun w₄ h₄ => (dput_reads c).bind fun w₅ h₅ => ?_
  have h₅' := h₄.trans h₅
  have hd₅ : w₅.contData? c = some cd := by
    rw [contData?_of_live (h₅'.live hlive), (h₃.trans h₅').disk]
    exact hd
  refine (loadContinuation_reads (h.warm (h₃.trans h₅')) ((h₃.trans h₅').pool ▸ hp) hd₅).bind fun w₆ _ => ?_
  exact .pure _ w₆

end Step

/-! ### Whole walks -/

/-- From `prev` on, successive calls of `chunkfs_get_next_cont` give the elements of the list and then
    stop, in every world that differs only by reading. --/
inductive Follows (w : World) (d : Dentry) : Option Continuation → List Continuation → Prop where
  | nil {prev : Option Continuation} (stop : ∀ w', Warm w w' → Reads (getNextCont d prev) w' (.ok none)) :
      Follows w d prev []
  | cons {prev : Option Continuation} {c : Continuation} {cs : List Continuation}
      (next : ∀ w', Warm w w' → Finds (getNextCont d prev) w' (.ok (some c)) c.inode)
      (rest : Follows w d (some c) cs) : Follows w d prev (c :: cs)

section Loops
variable {w : World} {d : Dentry} {prev : Option Continuation} {cs : List Continuation}

/-- A loop over a list of fewer elements than fuel has fuel for its next round. --/
theorem fuel_succ {α : Type} {l : List α} {fuel : Nat} (h : l.length < fuel) : ∃ n, fuel = n + 1 ∧ l.length ≤ n :=
  ⟨fuel - 1, by omega, by omega⟩

/-- The loop that looks for the last element finds it. --/
theorem lastCont_finds {t : Continuation} (h : Follows w d prev cs) {fuel : Nat} (hf : cs.length < fuel)
    (ht : cs.getLast? = some t) :
    ∀ w₁, Warm w w₁ → Finds (lastCont fuel d prev) w₁ (.ok (some t)) t.inode := by
  induction h generalizing fuel with
  | nil => cases ht
  | @cons prev c cs next rest ih =>
    intro w₁ h₁
    obtain ⟨n, rfl, hn⟩ := fuel_succ hf
    refine (next w₁ h₁).bind fun w₂ h₂ hlive => ?_
    cases rest with
    | nil stop =>
      -- The last element: one more call answers that there is none.
      obtain ⟨m, rfl, -⟩ := fuel_succ (l := ([] : List Continuation)) (Nat.lt_of_succ_le hn)
      cases ht
      refine .of_reads (stop w₂ (h₁.trans h₂)) fun w₃ h₃ => ?_
      exact (Reads.pure _ w₃).finds (h₃.live hlive)
    | cons next' rest' =>
      exact ih (Nat.lt_of_succ_le hn) (by rwa [List.getLast?_cons_cons] at ht) w₂ (h₁.trans h₂)

/-- The search finds the first element that covers the offset. --/
theorem contAtOffsetLoop_finds {offset : Int} {c : Continuation} (h : Follows w d prev cs) {fuel : Nat}
    (hf : cs.length < fuel) (hc : cs.find? (·.cd.covers offset) = some c) (junk : Bool) :
    ∀ w₁, Warm w w₁ → Finds (contAtOffsetLoop fuel d offset prev junk) w₁ (.ok c) c.inode := by
  induction h generalizing fuel junk with
  | nil => cases hc
  | @cons prev x cs next rest ih =>
    intro w₁ h₁
    obtain ⟨n, rfl, hn⟩ := fuel_succ hf
    refine (next w₁ h₁).bind fun w₂ h₂ hlive => ?_
    by_cases hx : x.cd.covers offset = true
    · simp only [hx, List.find?_cons_of_pos, Option.some.injEq] at hc
      subst hc
      simp only [hx, ↓reduceIte]
      exact (Reads.pure _ w₂).finds hlive
    · simp only [hx, Bool.false_eq_true, not_false_eq_true, List.find?_cons_of_neg] at hc
      simp only [hx, Bool.false_eq_true, ↓reduceIte]
      exact ih (Nat.lt_of_succ_le hn) hc false w₂ (h₁.trans h₂)

/-- `m` reads `a`, and the elements of the chain are in memory afterwards. --/
def ReadsIn {α : Type} (m : Kern α) (w : World) (a : α) (cs : List Continuation) : Prop :=
  Meets m w (fun r w' => r = a ∧ Warm w w' ∧ ∀ c ∈ cs, w'.icache c.inode = .live) (Halted w)

theorem ReadsIn.reads {α : Type} {m : Kern α} {a : α} (h : ReadsIn m w a cs) : Reads m w a :=
  h.mono (fun _ _ q => ⟨q.1, q.2.1⟩) fun _ _ q => q

theorem ReadsIn.cons {α β : Type} {m : Kern α} {f : α → Kern β} {a : α} {b : β} {c : Continuation}
    (h : Finds m w a c.inode) (k : ∀ w', Warm w w' → ReadsIn (f a) w' b cs) : ReadsIn (m >>= f) w b (c :: cs) := by
  refine Meets.bind h ?_
  rintro _ w' ⟨rfl, hw, hc⟩
  refine (k w' hw).mono (fun r w'' q => ⟨q.1, hw.trans q.2.1, ?_⟩) fun _ _ q => q.of_warm hw
  intro x hx
  rcases List.mem_cons.mp hx with rfl | hx
  · exact q.2.1.live hc
  · exact q.2.2 x hx

/-- The search answers `-ENOENT` when no element covers the offset; it has gone through them all. --/
theorem contAtOffsetLoop_enoent {offset : Int} (h : Follows w d prev cs) {fuel : Nat} (hf : cs.length < fuel)
    (hc : cs.find? (·.cd.covers offset) = none) (junk : Bool) :
    ∀ w₁, Warm w w₁ → ReadsIn (contAtOffsetLoop fuel d offset prev junk) w₁ (.error .enoent) cs := by
  induction h generalizing fuel junk with
  | @nil prev stop =>
    intro w₁ h₁
    obtain ⟨n, rfl, -⟩ := fuel_succ hf
    have hr : Reads (contAtOffsetLoop (n + 1) d offset prev junk) w₁ (.error .enoent) :=
      (stop w₁ h₁).bind fun w₂ _ => .pure _ w₂
    exact hr.mono (fun _ _ q => ⟨q.1, q.2, nofun⟩) fun _ _ q => q
  | @cons prev x cs next rest ih =>
    intro w₁ h₁
    obtain ⟨n, rfl, hn⟩ := fuel_succ hf
    refine .cons (next w₁ h₁) fun w₂ h₂ => ?_
    have hx : x.cd.covers offset ≠ true := by simpa using List.find?_eq_none.mp hc x (by simp)
    simp only [hx, Bool.false_eq_true, not_false_eq_true, List.find?_cons_of_neg] at hc
    simp only [hx, Bool.false_eq_true, ↓reduceIte]
    exact ih (Nat.lt_of_succ_le hn) hc false w₂ (h₁.trans h₂)

theorem getContAtOffset_finds {offset : Int} {c : Continuation} (h : Follows w d none cs)
    (hf : cs.length < w.env.fuel) (hc : cs.find? (·.cd.covers offset) = some c) :
    Finds (getContAtOffset d offset) w (.ok c) c.inode :=
  meets_get_bind (contAtOffsetLoop_finds h hf hc w.env.junkNull w (Warm.refl w))

theorem getContAtOffset_missed {offset : Int} (h : Follows w d none cs) (hf : cs.length < w.env.fuel)
    (hc : cs.find? (·.cd.covers offset) = none) : ReadsIn (getContAtOffset d offset) w (.error .enoent) cs :=
  meets_get_bind (contAtOffsetLoop_enoent h hf hc w.env.junkNull w (Warm.refl w))

theorem getContAtOffset_enoent {offset : Int} (h : Follows w d none cs) (hf : cs.length < w.env.fuel)
    (hc : cs.find? (·.cd.covers offset) = none) : Reads (getContAtOffset d offset) w (.error .enoent) :=
  (getContAtOffset_missed h hf hc).reads

/-- The walk along the whole chain, as `chunkfs_fsync_file` and `chunkfs_create_continuation` make it, with
    the continuations met. --/
def walkConts : Nat → Dentry → Option Continuation → Kern (Except Errno (List Continuation))
  | 0, _, _ => throw .hang
  | fuel + 1, d, prev => do
    match ← getNextCont d prev with
    | .error e => return .error e
    | .ok none => return .ok []
    | .ok (some next) =>
      match ← walkConts fuel d (some next) with
      | .error e => return .error e
      | .ok rest => return .ok (next :: rest)

theorem walkConts_reads (h : Follows w d prev cs) {fuel : Nat} (hf : cs.length < fuel) :
    ∀ w₁, Warm w w₁ → Reads (walkConts fuel d prev) w₁ (.ok cs) := by
  induction h generalizing fuel with
  | @nil prev stop =>
    intro w₁ h₁
    obtain ⟨n, rfl, -⟩ := fuel_succ hf
    refine (stop w₁ h₁).bind fun w₂ _ => ?_
    exact .pure _ w₂
  | @cons prev x cs next rest ih =>
    intro w₁ h₁
    obtain ⟨n, rfl, hn⟩ := fuel_succ hf
    refine (next w₁ h₁).reads.bind fun w₂ h₂ => ?_
    refine (ih (Nat.lt_of_succ_le hn) w₂ (h₁.trans h₂)).bind fun w₃ _ => ?_
    exact .pure _ w₃

end Loops

/-! ### Chains as they are walked -/

/-- What a walk needs to load an element. --/
structure Loadable (w : World) (c : Continuation) : Prop where
  eq_loaded : c = loaded c.inode c.cd c.chunkId
  pool : c.chunkId ∈ w.pool
  data : w.disk.contData? c.inode = some c.cd
  readable : w.Readable c.inode

/-- `next` of the first is not a stop, and names the chunk in which the second is found by its path. --/
structure Names (w : World) (vn : Vnode) (a b : Continuation) : Prop where
  not_head : a.cd.next ≠ vn.ino
  not_zero : a.cd.next ≠ 0
  chunk : b.chunkId = uinoToChunkId a.cd.next
  path : w.disk.path (contPath (uinoToChunkId a.cd.next) a.chunkId (uinoToIno a.uino)) = some b.inode

/-- A chain as it is walked: it begins at the head, and the `next` of its last element is 0 or the head's number. --/
structure Traced (w : World) (d : Dentry) (vn : Vnode) (cs : List Continuation) : Prop where
  vnode : w.vnode d.inode = some vn
  live : w.icache d.client = .live
  first : ∃ c rest, cs = c :: rest ∧ c.inode = d.client ∧ c.chunkId = uinoToChunkId vn.ino
  elem : ∀ c ∈ cs, Loadable w c
  links : cs.IsChain (Names w vn)
  last : ∀ c ∈ cs.getLast?, c.cd.next = vn.ino ∨ c.cd.next = 0

section Traced
variable {w : World} {d : Dentry} {vn : Vnode} {cs : List Continuation}

theorem Loadable.warm {w' : World} {c : Continuation} (h : Loadable w c) (hw : Warm w w') : Loadable w' c where
  eq_loaded := h.eq_loaded
  pool := hw.pool ▸ h.pool
  data := hw.disk ▸ h.data
  readable := hw.readable h.readable

theorem Names.warm {w' : World} {a b : Continuation} (h : Names w vn a b) (hw : Warm w w') : Names w' vn a b where
  not_head := h.not_head
  not_zero := h.not_zero
  chunk := h.chunk
  path := hw.disk ▸ h.path

theorem Traced.warm {w' : World} (h : Traced w d vn cs) (hw : Warm w w') : Traced w' d vn cs where
  vnode := hw.vnode ▸ h.vnode
  live := hw.live h.live
  first := h.first
  elem c hc := (h.elem c hc).warm hw
  links := h.links.imp fun _ _ hab => hab.warm hw
  last := h.last

theorem follows_rest (hh : Honest w) (hv : w.vnode d.inode = some vn) :
    ∀ {a : Continuation} {rest : List Continuation}, (∀ c ∈ rest, Loadable w c) → (a :: rest).IsChain (Names w vn) →
      (∀ c ∈ (a :: rest).getLast?, c.cd.next = vn.ino ∨ c.cd.next = 0) → Follows w d (some a) rest
  | a, [], _, _, hlast => .nil fun w' hw => getNextCont_end (hw.vnode ▸ hv) (hlast a (by simp))
  | a, b :: rest, helem, hlinks, hlast => by
    have hb := helem b (by simp)
    obtain ⟨hab, hrest⟩ := List.isChain_cons_cons.mp hlinks
    refine .cons (fun w' hw => ?_) (follows_rest hh hv (fun c hc => helem c (List.mem_cons_of_mem _ hc)) hrest
      fun c hc => hlast c (by rw [List.getLast?_cons_cons]; exact hc))
    have hr := getNextCont_next (hh.warm hw) (hw.vnode ▸ hv) a (c := b.inode) hab.not_head hab.not_zero
      (by rw [hw.disk]; exact hab.path) (hw.readable hb.readable) (by rw [hw.pool, ← hab.chunk]; exact hb.pool)
      (by rw [hw.disk]; exact hb.data)
    rw [← hab.chunk, ← hb.eq_loaded] at hr
    exact hr

/-- The walk from the head gives exactly the chain. --/
theorem Traced.follows (h : Traced w d vn cs) (hh : Honest w) : Follows w d none cs := by
  obtain ⟨c, rest, rfl, hc, hk⟩ := h.first
  have he := h.elem c (by simp)
  refine .cons (fun w' hw => ?_) (follows_rest hh h.vnode (fun x hx => h.elem x (List.mem_cons_of_mem _ hx)) h.links
    h.last)
  have hd : w'.contData? d.client = some c.cd := by
    rw [contData?_of_live (hw.live h.live), hw.disk, ← hc]
    exact he.data
  have hr := getNextCont_head (hh.warm hw) (hw.vnode ▸ h.vnode) (by rw [hw.pool, ← hk]; exact he.pool) hd
    (hw.live h.live)
  rw [← hk, ← hc, ← he.eq_loaded] at hr
  exact hr

end Traced

/-! ### Chains on disk -/

/-- A continuation as it lies on disk: in a chunk of the pool, with numbers that fit the fields of a
    unified number, and with its data complete. --/
structure OnDisk (w : World) (c : Continuation) : Prop where
  range : c.inode.InRange
  pool : c.inode.chunk ∈ w.pool
  chunk : c.chunkId = c.inode.chunk
  uino : c.uino = c.inode.uino
  data : w.disk.contData? c.inode = some c.cd

/-- `next` of the first names the second, and so does the path made from the first. --/
structure Links (w : World) (a b : Continuation) : Prop where
  next : a.cd.next = b.uino
  path : w.disk.path (contPath b.inode.chunk a.inode.chunk a.inode.ino) = some b.inode

/-- The chunkfs inode of a dentry is on the head client inode, which is in memory, and its number names
    the head's chunk. --/
structure HeadOk (w : World) (d : Dentry) : Prop where
  live : w.icache d.client = .live
  vnode : ∃ vn, w.vnode d.inode = some vn ∧ vn.client = some d.client ∧ uinoToChunkId vn.ino = d.client.chunk

/-- The chain of a file: it begins at the head, each element links the next, and the last has no `next`. --/
structure Linked (w : World) (d : Dentry) (cs : List Continuation) : Prop where
  head : HeadOk w d
  first : ∃ c rest, cs = c :: rest ∧ c.inode = d.client
  elem : ∀ c ∈ cs, OnDisk w c
  links : cs.IsChain (Links w)
  last : ∀ c ∈ cs.getLast?, c.cd.next = 0
  apart : ∀ vn, w.vnode d.inode = some vn → ∀ c ∈ cs.tail, c.uino ≠ vn.ino
  nodup : (cs.map (·.inode)).Nodup

/-- A chain whose inodes can all be read in. --/
structure Walkable (w : World) (d : Dentry) (cs : List Continuation) : Prop extends Linked w d cs where
  readable : ∀ c ∈ cs, w.Readable c.inode

section Chains
variable {w : World} {d : Dentry} {cs : List Continuation}

theorem OnDisk.eq_loaded {c : Continuation} (h : OnDisk w c) : c = loaded c.inode c.cd c.chunkId := by
  have hu : c.uino = makeUino c.chunkId c.inode.ino := by
    rw [h.uino, h.chunk]
    rfl
  unfold loaded
  rw [← hu]

theorem OnDisk.allocated {c : Continuation} (h : OnDisk w c) :
    ∃ i, w.disk.inode c.inode = some i ∧ i.contData? = some c.cd := Disk.inode_of_contData? h.data

/-- A chain on disk is walked by its paths. --/
theorem Walkable.traced (h : Walkable w d cs) : ∃ vn, Traced w d vn cs := by
  obtain ⟨vn, hv, -, hk⟩ := h.head.vnode
  have hload : ∀ c ∈ cs, Loadable w c := fun c hc =>
    have he := h.elem c hc
    ⟨he.eq_loaded, he.chunk ▸ he.pool, he.data, h.readable c hc⟩
  obtain ⟨c, rest, rfl, hc⟩ := h.first
  have he := h.elem c List.mem_cons_self
  refine ⟨vn, hv, h.head.live, ⟨c, rest, rfl, hc, by rw [he.chunk, hc, hk]⟩, hload, ?_, fun x hx => Or.inr (h.last x hx)⟩
  refine h.links.imp_of_mem_tail_imp fun a b ha hb hab => ?_
  have hao := h.elem a ha
  have hbo := h.elem b (List.mem_of_mem_tail hb)
  have hnext : a.cd.next = b.uino := hab.next
  have hchunk : uinoToChunkId a.cd.next = b.inode.chunk := by rw [hnext, hbo.uino, hbo.range.chunkId_uino]
  have hino : uinoToIno a.uino = a.inode.ino := by rw [hao.uino, hao.range.ino_uino]
  refine ⟨hnext ▸ h.apart vn hv b hb, ?_, by rw [hbo.chunk, hchunk], ?_⟩
  · rw [hnext, hbo.uino]
    exact hbo.range.uino_ne_zero
  · rw [hchunk, hao.chunk, hino]
    exact hab.path

/-- The walk from the head gives exactly the chain. --/
theorem Walkable.follows (h : Walkable w d cs) (hh : Honest w) : Follows w d none cs := by
  obtain ⟨vn, ht⟩ := h.traced
  exact ht.follows hh

end Chains

end Chunkfs
