import Chunkfs.Overlap
import Chunkfs.Theorems.System
import Chunkfs.Theorems.Writers

/-! A search while the file grows: each path lookup and each attribute that a search reads is a step of its own, and so is
each open and each attribute that `chunkfs_create_continuation` stores. Whatever comes between the steps of a search, it
ends, and its answer is the one that an uninterrupted search would have had in some state of the run. -/

namespace Chunkfs.Overlap
open Exec

/-! ### Each on its own -/

/-- What is left of `chunkfs_get_next_cont` once the client inode is known. --/
def loadsOn : Except Errno (Option (ClientIno × Nat)) → Kern (Except Errno (Option Continuation))
  | .error e => return .error e
  | .ok none => return .ok none
  | .ok (some (c, chunkId)) => do
    match ← getContData c with
    | .error e =>
      kfreeCont
      return .error e
    | .ok cd => return .ok (some (loaded c cd chunkId))

theorem loadContinuation_eq (c : ClientIno) (chunkId : Nat) :
    (loadContinuation c chunkId >>= fun
      | .error e => pure (.error e)
      | .ok cont => pure (.ok (some cont))) = loadBegins c chunkId >>= loadsOn := by
  unfold loadContinuation loadBegins
  simp only [bind_assoc]
  congr 1
  funext ok
  cases ok with
  | false => simp [loadsOn]
  | true =>
    simp only [bind_assoc, ↓reduceIte]
    congr 1
    funext w
    cases findChunk w.pool chunkId with
    | none => rfl
    | some k =>
      simp only [loadsOn, bind_assoc, pure_bind]
      congr 1
      funext r
      cases r <;> rfl

/-- `chunkfs_get_next_cont` in its two parts. --/
theorem getNextCont_eq (head : Dentry) (prev : Option Continuation) :
    getNextCont head prev = seekNext head prev >>= loadsOn := by
  unfold getNextCont seekNext
  simp only [bind_assoc]
  congr 1
  funext vn
  cases prev with
  | none =>
    simp only [bind_assoc]
    congr 1
    funext _
    exact loadContinuation_eq head.client (uinoToChunkId vn.ino)
  | some prev =>
    simp only
    split
    · rfl
    split
    · rfl
    simp only [bind_assoc]
    congr 1
    funext _
    congr 1
    funext r
    cases r with
    | error e => rfl
    | ok c =>
      simp only [bind_assoc]
      congr 1
      funext _
      congr 1
      funext _
      exact loadContinuation_eq c _

section Alone
variable {d : Dentry} {wanted : ContData → Bool} {w w' u : World} {prev : Option Continuation} {c : ClientIno} {k : Nat}

/-- Reading the attributes that are still to do, one by one. --/
def readOn (c : ClientIno) : ContData → List ContAttr → Kern (Except Errno ContData)
  | cd, [] => return .ok cd
  | cd, a :: todo => do
    match ← getSetContData c a 0 0 with
    | .error e => return .error e
    | .ok value => readOn c (cd.put a value) todo

theorem getContData_eq (c : ClientIno) : getContData c = readOn c ⟨0, 0, 0, 0⟩ ContAttr.inTurn := rfl

variable (d wanted prev k) in
theorem readOn_leads {cd : ContData} {todo : List ContAttr} {r : Except Errno ContData} (h : readOn c cd todo w = .ok r u) :
    match r with
    | .ok cd' => Steps (Stage.step d wanted) (.reads prev c k cd todo) w (.reads prev c k cd' []) u
    | .error e => ∀ w', kfreeCont u = .ok () w' →
        Steps (Stage.step d wanted) (.reads prev c k cd todo) w (.ended prev (.error e)) w' := by
  induction todo generalizing cd w with
  | nil =>
    cases h
    exact .refl _ _
  | cons a todo ih =>
    obtain ⟨x, v, hx, hr⟩ := bind_eq_ok.mp h
    cases x with
    | error e =>
      cases hr
      exact fun w' hw => .one ((bind_ok hx).trans (bind_ok hw))
    | ok value =>
      have hs : Stage.step d wanted (.reads prev c k cd (a :: todo)) w = .ok (.reads prev c k (cd.put a value) todo) v :=
        bind_ok hx
      have hrest := ih hr
      cases r with
      | ok cd' => exact .step hs hrest
      | error e => exact fun w' hw => .step hs (hrest w' hw)

variable (wanted) in
/-- A call of `chunkfs_get_next_cont`, step by step. --/
theorem getNextCont_leads {r : Except Errno (Option Continuation)} (h : getNextCont d prev w = .ok r w') :
    match r with
    | .ok (some next) =>
        Steps (Stage.step d wanted) (.seeks prev) w (.reads prev next.inode next.chunkId next.cd []) w' ∧
          next = loaded next.inode next.cd next.chunkId
    | r => Steps (Stage.step d wanted) (.seeks prev) w (.ended prev r) w' := by
  rw [getNextCont_eq] at h
  obtain ⟨x, u, hx, hr⟩ := bind_eq_ok.mp h
  match x with
  | .error e =>
    cases hr
    exact .one (bind_ok hx)
  | .ok none =>
    cases hr
    exact .one (bind_ok hx)
  | .ok (some (c, k)) =>
    have hs : Stage.step d wanted (.seeks prev) w = .ok (.reads prev c k ⟨0, 0, 0, 0⟩ ContAttr.inTurn) u := bind_ok hx
    obtain ⟨y, v, hy, hr⟩ := bind_eq_ok.mp hr
    rw [getContData_eq] at hy
    have hread := readOn_leads d wanted prev k hy
    cases y with
    | error e =>
      obtain ⟨_, v', hfree, hr⟩ := bind_eq_ok.mp hr
      cases hr
      exact .step hs (hread _ hfree)
    | ok cd =>
      cases hr
      exact ⟨.step hs hread, rfl⟩

variable (prev) in
/-- The loop of `chunkfs_get_cont_at_offset`, step by step. --/
theorem contAtOffsetLoop_leads {offset : Int} {junk : Bool} {fuel : Nat} {r : Except Errno Continuation}
    (h : contAtOffsetLoop fuel d offset prev (prev.isNone && junk) w = .ok r w') :
    ∃ st, Steps (Stage.step d (·.covers offset)) (.seeks prev) w st w' ∧ st.answer junk = some r := by
  induction fuel generalizing prev w with
  | zero => cases h
  | succ fuel ih =>
    obtain ⟨x, u, hx, hr⟩ := bind_eq_ok.mp h
    have hleads := getNextCont_leads (·.covers offset) hx
    match x with
    | .error e =>
      cases hr
      exact ⟨_, hleads, rfl⟩
    | .ok none =>
      cases hr
      exact ⟨_, hleads, rfl⟩
    | .ok (some next) =>
      obtain ⟨hleads, hnext⟩ := hleads
      have hstep : Stage.step d (·.covers offset) (.reads prev next.inode next.chunkId next.cd []) u =
          .ok (if next.cd.covers offset then .ended prev (.ok (some next)) else .seeks (some next)) u := by
        unfold Stage.step
        dsimp only
        rw [show (⟨next.inode, next.cd, next.chunkId, makeUino next.chunkId next.inode.ino⟩ : Continuation) = next from
          hnext.symm]
        split <;> rfl
      by_cases hc : next.cd.covers offset = true
      · simp only [hc, ↓reduceIte] at hr hstep
        cases hr
        exact ⟨_, hleads.trans (.one hstep), rfl⟩
      · simp only [hc] at hr hstep
        obtain ⟨st, hst, ha⟩ := ih (some next) hr
        exact ⟨st, hleads.trans (.step hstep hst), ha⟩

/-- A search that nothing comes between is `chunkfs_get_cont_at_offset`. --/
theorem search_alone {offset : Int} {r : Except Errno Continuation} (h : getContAtOffset d offset w = .ok r w') :
    ∃ st, Steps (Stage.step d (·.covers offset)) (.seeks none) w st w' ∧ st.answer w.env.junkNull = some r :=
  contAtOffsetLoop_leads none h

/-- The walk of `chunkfs_create_continuation`, step by step. --/
theorem lastCont_leads {fuel : Nat} {r : Except Errno (Option Continuation)} (h : lastCont fuel d prev w = .ok r w') :
    match r with
    | .ok last => Steps (Growing.step d) (.walks (.seeks prev)) w (.walks (.ended last (.ok none))) w'
    | .error _ => Steps (Growing.step d) (.walks (.seeks prev)) w .idle w' := by
  have walk : ∀ {st st' : Stage} {v v' : World}, Steps (Stage.step d fun _ => false) st v st' v' →
      Steps (Growing.step d) (.walks st) v (.walks st') v' := by
    refine fun hl => hl.map (P := fun st => st.isEnded = false) (fun st v st' v' ho hs => ?_) fun st v st' v' ho hs => ?_
    · cases st with
      | ended prev r => cases ho
      | seeks prev => exact bind_ok hs
      | reads prev c k cd todo => exact bind_ok hs
    · cases st with
      | ended prev r =>
        cases hs
        exact ⟨rfl, rfl⟩
      | seeks prev => exact absurd rfl ho
      | reads prev c k cd todo => exact absurd rfl ho
  induction fuel generalizing prev w with
  | zero => cases h
  | succ fuel ih =>
    obtain ⟨x, u, hx, hr⟩ := bind_eq_ok.mp h
    have hleads := getNextCont_leads (fun _ => false) hx
    match x with
    | .error e =>
      cases hr
      exact (walk hleads).trans (.one rfl)
    | .ok none =>
      cases hr
      exact walk hleads
    | .ok (some next) =>
      obtain ⟨hleads, hnext⟩ := hleads
      have hstep : Stage.step d (fun _ => false) (.reads prev next.inode next.chunkId next.cd []) u =
          .ok (.seeks (some next)) u := by
        unfold Stage.step
        dsimp only
        rw [show (⟨next.inode, next.cd, next.chunkId, makeUino next.chunkId next.inode.ino⟩ : Continuation) = next from
          hnext.symm]
        rfl
      have hto := walk (hleads.trans (.one hstep))
      have hrest := ih hr
      cases r with
      | ok last => exact hto.trans hrest
      | error e => exact hto.trans hrest

/-- Storing the attributes that are still to do, one by one. --/
def storeOn (c : ClientIno) (cd : ContData) : List ContAttr → Kern (Except Errno Unit)
  | [] => return .ok ()
  | a :: todo => do
    match ← getSetContData c a (cd.value a) 1 with
    | .error e => return .error e
    | .ok _ => storeOn c cd todo

theorem setContData_eq (c : ClientIno) (cd : ContData) : setContData c cd = storeOn c cd ContAttr.inTurn := rfl

/-- Either update of `chunkfs_create_continuation`, step by step; `next` is what comes after it. --/
theorem storeOn_leads {cd : ContData} {todo : List ContAttr} {r : Except Errno Unit} {g : List ContAttr → Growing}
    {next : Growing} (hcons : ∀ a todo, Growing.step d (g (a :: todo)) = (getSetContData c a (cd.value a) 1 >>= fun
      | .error _ => pure next
      | .ok _ => pure (g todo))) (hnil : Growing.step d (g []) = pure next) (h : storeOn c cd todo w = .ok r w') :
    Steps (Growing.step d) (g todo) w next w' := by
  induction todo generalizing w with
  | nil =>
    cases h
    exact .one (congrFun hnil _)
  | cons a todo ih =>
    obtain ⟨x, u, hx, hr⟩ := bind_eq_ok.mp h
    have hs := congrFun (hcons a todo) w
    rw [bind_ok hx] at hs
    cases x with
    | error e =>
      cases hr
      exact .one hs
    | ok value => exact .step hs (ih hr)

/-- A growing that nothing comes between is `chunkfs_create_continuation`. --/
theorem growing_alone {file : File} {ppos : Int} {r : Except Errno Opened} (h : createContinuation file ppos w = .ok r w') :
    Steps (Growing.step file.dentry) (.walks (.seeks none)) w .idle w' := by
  have h : (lastCont w.env.fuel file.dentry none >>= _) w = .ok r w' := h
  obtain ⟨x, u, hx, hr⟩ := bind_eq_ok.mp h
  have hwalk := lastCont_leads hx
  match x with
  | .error e =>
    cases hr
    exact hwalk
  | .ok none => cases hr
  | .ok (some t) =>
    refine hwalk.trans (.step (b := .opens t) rfl ?_)
    obtain ⟨_, v, hname, hr⟩ := bind_eq_ok.mp hr
    obtain ⟨y, v', hopen, hr⟩ := bind_eq_ok.mp hr
    cases y with
    | error e =>
      obtain ⟨_, v'', hput, hr⟩ := bind_eq_ok.mp hr
      cases hr
      exact .one ((bind_ok hname).trans ((bind_ok hopen).trans (bind_ok hput)))
    | ok newFile =>
      obtain ⟨_, v₁, hget, hr⟩ := bind_eq_ok.mp hr
      obtain ⟨_, v₂, hnew, hr⟩ := bind_eq_ok.mp hr
      obtain ⟨_, v₃, hlink, hr⟩ := bind_eq_ok.mp hr
      obtain ⟨z, v₄, hload, hr⟩ := bind_eq_ok.mp hr
      refine .step (b := .fills t newFile.inode ContAttr.inTurn) (t := v₁)
        ((bind_ok hname).trans ((bind_ok hopen).trans (bind_ok hget))) ?_
      rw [setContData_eq] at hnew hlink
      refine (storeOn_leads (g := .fills t newFile.inode) (fun _ _ => rfl) rfl hnew).trans ?_
      refine (storeOn_leads (g := .links t newFile.inode) (fun _ _ => rfl) rfl hlink).trans ?_
      cases z with
      | error e => cases hr
      | ok cont =>
        cases hr
        exact .one (bind_ok hload)

end Alone

/-! ### A chain and what became of it -/

/-- `b` is what became of `a`: the same, but that it may have got a `next`. --/
structure Became (a b : Continuation) : Prop where
  inode : b.inode = a.inode
  chunkId : b.chunkId = a.chunkId
  prev : b.cd.prev = a.cd.prev
  start : b.cd.start = a.cd.start
  len : b.cd.len = a.cd.len
  next : a.cd.next ≠ 0 → b = a

theorem Became.refl (a : Continuation) : Became a a := ⟨rfl, rfl, rfl, rfl, rfl, fun _ => rfl⟩

theorem Became.trans {a b c : Continuation} (h : Became a b) (h' : Became b c) : Became a c where
  inode := h'.inode.trans h.inode
  chunkId := h'.chunkId.trans h.chunkId
  prev := h'.prev.trans h.prev
  start := h'.start.trans h.start
  len := h'.len.trans h.len
  next ha := by
    have hb := h.next ha
    subst hb
    exact h'.next ha

theorem Became.value {a b : Continuation} (h : Became a b) {x : ContAttr} (hx : x ≠ .next) : b.cd.value x = a.cd.value x := by
  cases x with
  | next => exact absurd rfl hx
  | prev => exact h.prev
  | start => exact h.start
  | len => exact h.len

/-- The chain `cs'` has come of `cs`: each element is still there. --/
def Later (cs cs' : List Continuation) : Prop :=
  ∀ (i : Nat) (a : Continuation), cs[i]? = some a → ∃ b, cs'[i]? = some b ∧ Became a b

theorem Later.refl (cs : List Continuation) : Later cs cs := fun _ a ha => ⟨a, ha, .refl a⟩

theorem Later.trans {cs cs' cs'' : List Continuation} (h : Later cs cs') (h' : Later cs' cs'') : Later cs cs'' := by
  intro i a ha
  obtain ⟨b, hb, hab⟩ := h i a ha
  obtain ⟨c, hc, hbc⟩ := h' i b hb
  exact ⟨c, hc, hab.trans hbc⟩

theorem later_grown {init : List Continuation} {t : Continuation} (ht : t.cd.next = 0) (c : ClientIno) :
    Later (init ++ [t]) (init ++ [relinked t c, appended t c]) := by
  intro i a ha
  rcases Nat.lt_trichotomy i init.length with hi | rfl | hi
  · rw [List.getElem?_append_left hi] at ha ⊢
    exact ⟨a, ha, .refl a⟩
  · rw [List.getElem?_append_right (Nat.le_refl _), Nat.sub_self] at ha ⊢
    cases ha
    exact ⟨_, rfl, rfl, rfl, rfl, rfl, rfl, fun hne => absurd ht hne⟩
  · rw [List.getElem?_eq_none (by rw [List.length_append, List.length_singleton]; exact hi)] at ha
    cases ha

end Chunkfs.Overlap

namespace Chunkfs.Writers.Workable
open Exec Overlap
variable {w : World} {d : Dentry} {cs : List Continuation} {a b : Continuation} {i : Nat}

theorem vnode (h : Workable w d cs) : ∃ vn, w.vnode d.inode = some vn ∧ uinoToChunkId vn.ino = d.client.chunk := by
  obtain ⟨vn, hv, -, hk⟩ := h.head.vnode
  exact ⟨vn, hv, hk⟩

/-- Neighbours, as the walk finds the second of them. --/
theorem names (h : Workable w d cs) (ha : cs[i]? = some a) (hb : cs[i + 1]? = some b) :
    ∃ vn, w.vnode d.inode = some vn ∧ Names w vn a b := by
  obtain ⟨vn, ht⟩ := h.walkable.traced
  obtain ⟨hi, rfl⟩ := List.getElem?_eq_some_iff.mp hb
  obtain ⟨_, rfl⟩ := List.getElem?_eq_some_iff.mp ha
  exact ⟨vn, ht.vnode, List.isChain_iff_getElem.mp ht.links i hi⟩

/-- An element has no `next` just when it is the last. --/
theorem next_eq_zero_iff (h : Workable w d cs) (ha : cs[i]? = some a) : a.cd.next = 0 ↔ i + 1 = cs.length := by
  have hi := (List.getElem?_eq_some_iff.mp ha).1
  constructor
  · intro hz
    by_contra hne
    obtain ⟨b, hb⟩ : ∃ b, cs[i + 1]? = some b := ⟨_, List.getElem?_eq_getElem (by omega)⟩
    obtain ⟨vn, -, hn⟩ := h.names ha hb
    exact hn.not_zero hz
  · intro hl
    refine h.last a ?_
    rw [List.getLast?_eq_getElem?, ← hl]
    exact ha

theorem eq_loaded (h : Workable w d cs) (ha : cs[i]? = some a) : a = loaded a.inode a.cd a.chunkId :=
  (h.elem a (List.mem_of_getElem? ha)).eq_loaded

theorem length_le_fifteen (h : Workable w d cs) : cs.length ≤ 15 := by
  have h₁ := h.length_le
  have h₂ := h.chunk_pos
  omega

/-- The attributes of an element are read as they are. --/
theorem reads (h : Workable w d cs) (ha : cs[i]? = some a) (x : ContAttr) :
    ∃ w', getSetContData a.inode x 0 0 w = .ok (.ok (a.cd.value x)) w' ∧ Warm w w' := by
  have hmem := List.mem_of_getElem? ha
  have hd : w.contData? a.inode = some a.cd := by
    rw [contData?_of_live (h.live a hmem)]
    exact (h.elem a hmem).data
  exact (getSetContData_reads h.calm.honest hd).calm h.calm

theorem loadBegins_reads {c : ClientIno} {k : Nat} (hh : Honest w) (hk : k ∈ w.pool) :
    Reads (loadBegins c k) w (.ok (some (c, k))) := by
  refine (kzallocCont_reads hh).bind fun w₁ h₁ => get_bind_reads ?_
  rw [h₁.pool, findChunk_of_mem hk]
  exact .pure _ w₁

theorem seeks_head (h : Workable w d cs) (ha : cs[0]? = some a) :
    ∃ w', seekNext d none w = .ok (.ok (some (a.inode, a.chunkId))) w' ∧ Warm w w' := by
  refine Reads.calm ?_ h.calm
  have ho := h.elem a (List.mem_of_getElem? ha)
  obtain ⟨vn, hv, hk⟩ := h.vnode
  obtain ⟨x, rest, rfl, hx⟩ := h.first
  cases ha
  have hchunk : uinoToChunkId vn.ino = a.chunkId := by rw [hk, ho.chunk, hx]
  refine (vnodeAt_reads hv).bind fun w₁ h₁ => ?_
  refine (dget_reads d.client).bind fun w₂ h₂ => ?_
  have h₂ := h₁.trans h₂
  rw [hchunk, ← hx]
  exact loadBegins_reads (h.calm.honest.warm h₂) (by rw [h₂.pool, ho.chunk]; exact ho.pool)

theorem seeks_end (h : Workable w d cs) (hz : a.cd.next = 0) :
    ∃ w', seekNext d (some a) w = .ok (.ok none) w' ∧ Warm w w' := by
  refine Reads.calm ?_ h.calm
  obtain ⟨vn, hv, -⟩ := h.vnode
  refine (vnodeAt_reads hv).bind fun w₁ _ => ?_
  simp only [hz, ↓reduceIte]
  split <;> exact .pure _ w₁

theorem seeks_next (h : Workable w d cs) (ha : cs[i]? = some a) (hb : cs[i + 1]? = some b) :
    ∃ w', seekNext d (some a) w = .ok (.ok (some (b.inode, b.chunkId))) w' ∧ Warm w w' := by
  refine Reads.calm ?_ h.calm
  obtain ⟨vn, hv, hn⟩ := h.names ha hb
  have ho := h.elem b (List.mem_of_getElem? hb)
  refine (vnodeAt_reads hv).bind fun w₁ h₁ => ?_
  simp only [hn.not_head, hn.not_zero, ↓reduceIte]
  refine (getname_reads (h.calm.honest.warm h₁)).bind fun w₂ h₂ => ?_
  have h₂ := h₁.trans h₂
  refine (kernPath_finds (h.calm.honest.warm h₂) (h₂.disk ▸ hn.path) (h₂.readable (h.readable b.inode))).reads.bind
    fun w₃ h₃ => ?_
  have h₃ := h₂.trans h₃
  refine (dget_reads b.inode).bind fun w₄ h₄ => (dput_reads b.inode).bind fun w₅ h₅ => ?_
  have h₅ := h₃.trans (h₄.trans h₅)
  rw [← hn.chunk]
  exact loadBegins_reads (h.calm.honest.warm h₅) (by rw [h₅.pool, ho.chunk]; exact ho.pool)

/-- Opening a file does not touch the file. --/
theorem openPath {u : World} {c : ClientIno} {k f n : Nat} {mode : Nat} (h : Workable w d cs)
    (ho : w.openPath (contPath k f n) mode = .ok (c, u)) : Workable u d cs where
  toFileChain := h.toFileChain.openPath ho
  sound := h.sound.openPath ho
  calm := by
    unfold Calm
    rw [(openPath_env ho).1]
    exact h.calm
  fuel := (openPath_env ho).1 ▸ h.fuel
  readable x := by
    rcases openPath_cases ho with ⟨-, rfl⟩ | ⟨-, -, -, -, rfl⟩
    · exact (readIn_warm c).readable (h.readable x)
    · by_cases hx : x = c
      · exact Or.inl (by simp [World.withFile, hx])
      · have hr := h.readable x
        unfold World.Readable at hr ⊢
        simpa [World.withFile, hx] using hr

/-- Nor does a change of an inode that is not in its chain. --/
theorem modify_outside {c : ClientIno} (h : Workable w d cs) (hc : c ∉ cs.map (·.inode)) (f : ClientInode → ClientInode) :
    Workable (w.setDisk (w.disk.modify c f)) d cs where
  toLinked := h.toLinked.frame (fun x hx => by
    have hne : x.inode ≠ c := fun he => hc (he ▸ List.mem_map_of_mem hx)
    show (w.disk.modify c f).contData? x.inode = some x.cd
    rw [Disk.contData?_modify_of_ne hne]
    exact (h.elem x hx).data) (fun _ _ => rfl) rfl h.head.live fun vn hv => ⟨vn, hv, rfl, rfl⟩
  live := h.live
  number := h.number
  origin := h.origin
  adjoins := h.adjoins
  len := h.len
  sound := h.sound.modify c f
  calm := h.calm
  fuel := h.fuel
  readable := h.readable

/-- Nor one that leaves an inode its continuation data. --/
theorem modify_kept {c : ClientIno} {i : ClientInode} {f : ClientInode → ClientInode} (h : Workable w d cs)
    (hi : w.disk.inode c = some i) (hf : (f i).contData? = i.contData?) :
    Workable (w.setDisk (w.disk.modify c f)) d cs := by
  have hk : Kept w (w.setDisk (w.disk.modify c f)) := by
    refine ⟨rfl, rfl, rfl, fun x j hj => ?_, fun _ hc => hc, fun _ vn hv => ⟨vn, hv, rfl, rfl⟩, Nat.le_refl _, id, id⟩
    by_cases hx : x = c
    · subst hx
      rw [hi] at hj
      cases hj
      exact ⟨f i, by simp [World.setDisk, hi], hf⟩
    · exact ⟨j, by simp [World.setDisk, Disk.modify, hx, hj], rfl⟩
  exact h.kept hk rfl h.readable

end Chunkfs.Writers.Workable

namespace Chunkfs.Overlap
open Exec Writers

/-! ### A walk that others come between -/

/-- Where a walk has come after `n` steps, told by chains that the file has had: the elements it has passed are those of
    one of them, and are not wanted. --/
def Stage.At (seen : List Continuation → Prop) (wanted : ContData → Bool) (n : Nat) : Stage → Prop
  | .seeks none => n = 0
  | .seeks (some prev) => ∃ cs i, seen cs ∧ cs[i]? = some prev ∧
      (∀ j ≤ i, ∀ x, cs[j]? = some x → wanted x.cd = false) ∧ n = 6 * i + 6
  | .reads _ c chunkId cd todo => ∃ cs i a, seen cs ∧ cs[i]? = some a ∧ a.inode = c ∧ a.chunkId = chunkId ∧
      (∀ j < i, ∀ x, cs[j]? = some x → wanted x.cd = false) ∧ todo <:+ ContAttr.inTurn ∧
      (∀ x ∉ todo, cd.value x = a.cd.value x) ∧ n + todo.length = 6 * i + 5
  | .ended _ (.ok (some next)) => n ≤ 91 ∧ ∃ cs, seen cs ∧ cs.find? (wanted ·.cd) = some next
  | .ended prev (.ok none) => n ≤ 91 ∧ ∃ cs, seen cs ∧ cs.find? (wanted ·.cd) = none ∧ cs.getLast? = prev
  | .ended _ (.error _) => False

/-- The chains a file has had: `cs` is the one it has now. --/
structure Seen (d : Dentry) (seen : List Continuation → Prop) (cs : List Continuation) : Prop where
  now : seen cs
  later : ∀ cs', seen cs' → Later cs' cs
  chain : ∀ cs', seen cs' → ∃ w, Workable w d cs'

/-- What is wanted of an element does not depend on its `next` and `prev`. --/
def OfRange (wanted : ContData → Bool) : Prop := ∀ a b : ContData, b.start = a.start → b.len = a.len → wanted b = wanted a

section Walk
variable {w : World} {d : Dentry} {cs : List Continuation} {seen seen' : List Continuation → Prop} {wanted : ContData → Bool}
  {n : Nat} {stage : Stage} {prev : Option Continuation}

theorem Stage.At.mono (h : stage.At seen wanted n) (hs : ∀ cs, seen cs → seen' cs) : stage.At seen' wanted n := by
  match stage, h with
  | .seeks none, h => exact h
  | .seeks (some prev), ⟨cs, i, hcs, h⟩ => exact ⟨cs, i, hs cs hcs, h⟩
  | .reads .., ⟨cs, i, a, hcs, h⟩ => exact ⟨cs, i, a, hs cs hcs, h⟩
  | .ended _ (.ok (some _)), ⟨hn, cs, hcs, h⟩ => exact ⟨hn, cs, hs cs hcs, h⟩
  | .ended _ (.ok none), ⟨hn, cs, hcs, h⟩ => exact ⟨hn, cs, hs cs hcs, h⟩

theorem OfRange.became (hw : OfRange wanted) {a b : Continuation} (h : Became a b) : wanted b.cd = wanted a.cd :=
  hw a.cd b.cd h.start h.len

/-- What was not wanted is not wanted now. --/
theorem OfRange.later (hw : OfRange wanted) {cs' : List Continuation} (h : Later cs cs') {i : Nat} (hi : i ≤ cs.length)
    (hn : ∀ j < i, ∀ x, cs[j]? = some x → wanted x.cd = false) : ∀ j < i, ∀ x, cs'[j]? = some x → wanted x.cd = false := by
  intro j hj x hx
  obtain ⟨y, hy⟩ : ∃ y, cs[j]? = some y := ⟨_, List.getElem?_eq_getElem (Nat.lt_of_lt_of_le hj hi)⟩
  obtain ⟨x', hx', hb⟩ := h j y hy
  rw [hx] at hx'
  cases hx'
  exact (hw.became hb).trans (hn j hj y hy)

theorem seeks_step (hst : (Stage.seeks prev).At seen wanted n) (hs : Seen d seen cs) (h : Workable w d cs)
    (hw : OfRange wanted) :
    ∃ stage' w', (Stage.seeks prev).step d wanted w = .ok stage' w' ∧ Warm w w' ∧ stage'.At seen wanted (n + 1) := by
  have all (x : ContAttr) : x ∈ ContAttr.inTurn := by cases x <;> decide
  cases prev with
  | none =>
    have hpos := List.length_pos_of_ne_nil h.ne_nil
    obtain ⟨a, ha⟩ : ∃ a, cs[0]? = some a := ⟨_, List.getElem?_eq_getElem hpos⟩
    obtain ⟨w', hr, hwarm⟩ := h.seeks_head ha
    have hn : n = 0 := hst
    refine ⟨_, w', bind_ok hr, hwarm, cs, 0, a, hs.now, ha, rfl, rfl, fun j hj => absurd hj (Nat.not_lt_zero j),
      List.suffix_refl _, fun x hx => absurd (all x) hx, ?_⟩
    rw [hn]
    rfl
  | some a =>
    obtain ⟨cs', i, hcs, ha, hnot, hn⟩ := hst
    obtain ⟨w₀, hwork⟩ := hs.chain cs' hcs
    have hi := (List.getElem?_eq_some_iff.mp ha).1
    by_cases hz : a.cd.next = 0
    · -- It was the last when its `next` was read.
      obtain ⟨w', hr, hwarm⟩ := h.seeks_end hz
      have hlen := (hwork.next_eq_zero_iff ha).mp hz
      have hle := hwork.length_le_fifteen
      refine ⟨_, w', bind_ok hr, hwarm, by omega, cs', hcs, List.find?_eq_none.mpr fun x hx => ?_, ?_⟩
      · obtain ⟨j, hj⟩ := List.mem_iff_getElem?.mp hx
        have hjl := (List.getElem?_eq_some_iff.mp hj).1
        rw [hnot j (by omega) x hj]
        exact Bool.false_ne_true
      · rw [List.getLast?_eq_getElem?, ← hlen]
        exact ha
    · obtain ⟨a', ha', hb⟩ := hs.later cs' hcs i a ha
      obtain rfl := hb.next hz
      have hlt := (List.getElem?_eq_some_iff.mp ha').1
      have hne := mt (h.next_eq_zero_iff ha').mpr hz
      obtain ⟨b, hb⟩ : ∃ b, cs[i + 1]? = some b := ⟨_, List.getElem?_eq_getElem (by omega)⟩
      obtain ⟨w', hr, hwarm⟩ := h.seeks_next ha' hb
      refine ⟨_, w', bind_ok hr, hwarm, cs, i + 1, b, hs.now, hb, rfl, rfl,
        hw.later (hs.later cs' hcs) hi fun j hj => hnot j (Nat.le_of_lt_succ hj), List.suffix_refl _,
        fun x hx => absurd (all x) hx, ?_⟩
      show n + 1 + 4 = 6 * (i + 1) + 5
      omega

theorem value_put (cd : ContData) (a x : ContAttr) (v : Nat) :
    (cd.put a v).value x = if x = a then v else cd.value x := by
  cases a <;> cases x <;> rfl

theorem eq_of_value {a b : ContData} (h : ∀ x, a.value x = b.value x) : a = b := by
  cases a
  cases b
  exact ContData.mk.injEq .. ▸ ⟨h .next, h .prev, h .start, h .len⟩

theorem next_first {todo : List ContAttr} (h : .next :: todo <:+ ContAttr.inTurn) {x : ContAttr} (hx : x ∉ todo) :
    x = .next := by
  obtain ⟨l, hl⟩ := h
  cases l with
  | nil =>
    cases hl
    cases x with
    | next => rfl
    | prev | start | len => exact absurd (by decide) hx
  | cons y l =>
    have hmem : ContAttr.next ∈ [.prev, .start, .len] := by
      rw [← (List.cons.inj hl).2]
      exact List.mem_append_right _ List.mem_cons_self
    exact absurd hmem (by decide)

theorem reads_step {c : ClientIno} {k : Nat} {cd : ContData} {x : ContAttr} {todo : List ContAttr}
    (hst : (Stage.reads prev c k cd (x :: todo)).At seen wanted n) (hs : Seen d seen cs) (h : Workable w d cs)
    (hw : OfRange wanted) : ∃ stage' w', (Stage.reads prev c k cd (x :: todo)).step d wanted w = .ok stage' w' ∧ Warm w w' ∧
      stage'.At seen wanted (n + 1) := by
  obtain ⟨cs', i, a, hcs, ha, rfl, rfl, hnot, hsuf, hval, hn⟩ := hst
  obtain ⟨b, hb, hab⟩ := hs.later cs' hcs i a ha
  obtain ⟨w', hr, hwarm⟩ := h.reads hb x
  rw [hab.inode] at hr
  refine ⟨_, w', bind_ok hr, hwarm, ?_⟩
  have hrest : todo <:+ ContAttr.inTurn := (List.suffix_cons x todo).trans hsuf
  have hcount : n + 1 + todo.length = 6 * i + 5 := by
    rw [← hn, List.length_cons]
    omega
  by_cases hx : x = .next
  · -- The first attribute read: what is there now is what is read.
    subst hx
    have hi := (List.getElem?_eq_some_iff.mp ha).1
    refine ⟨cs, i, b, hs.now, hb, hab.inode, hab.chunkId, hw.later (hs.later cs' hcs) (Nat.le_of_lt hi) hnot, hrest,
      fun y hy => ?_, hcount⟩
    obtain rfl := next_first hsuf hy
    rw [value_put, if_pos rfl]
  · refine ⟨cs', i, a, hcs, ha, rfl, rfl, hnot, hrest, fun y hy => ?_, hcount⟩
    rw [value_put]
    by_cases hyx : y = x
    · rw [if_pos hyx, hyx]
      exact hab.value hx
    · rw [if_neg hyx]
      exact hval y fun hm => (List.mem_cons.mp hm).elim hyx hy

/-- All attributes have been read: they are those of an element, and it is wanted or passed. --/
theorem read_step {c : ClientIno} {k : Nat} {cd : ContData} (hst : (Stage.reads prev c k cd []).At seen wanted n)
    (hs : Seen d seen cs) : ∃ stage', (Stage.reads prev c k cd []).step d wanted w = .ok stage' w ∧
      stage'.At seen wanted (n + 1) := by
  obtain ⟨cs', i, a, hcs, ha, rfl, rfl, hnot, -, hval, hn⟩ := hst
  obtain ⟨w₀, hwork⟩ := hs.chain cs' hcs
  obtain rfl : cd = a.cd := eq_of_value fun x => hval x List.not_mem_nil
  have hi := (List.getElem?_eq_some_iff.mp ha).1
  have hle := hwork.length_le_fifteen
  have hload : (⟨a.inode, a.cd, a.chunkId, makeUino a.chunkId a.inode.ino⟩ : Continuation) = a := (hwork.eq_loaded ha).symm
  rw [List.length_nil] at hn
  cases hc : wanted a.cd with
  | true =>
    refine ⟨.ended prev (.ok (some a)), ?_, by omega, cs', hcs, ?_⟩
    · unfold Stage.step
      dsimp only
      rw [hload, if_pos hc]
      rfl
    · refine List.find?_eq_some_iff_getElem.mpr ⟨hc, i, hi, (List.getElem?_eq_some_iff.mp ha).2, fun j hj => ?_⟩
      rw [hnot j hj _ (List.getElem?_eq_getElem (Nat.lt_trans hj hi))]
      rfl
  | false =>
    refine ⟨.seeks (some a), ?_, cs', i, hcs, ha, fun j hj x hx => ?_, by omega⟩
    · unfold Stage.step
      dsimp only
      rw [hload, if_neg (by rw [hc]; exact Bool.false_ne_true)]
      rfl
    · rcases Nat.lt_or_eq_of_le hj with hj | rfl
      · exact hnot j hj x hx
      · rw [ha] at hx
        cases hx
        exact hc

/-- One step of a walk, while the file has the chain `cs`. --/
theorem Stage.At.step (hst : stage.At seen wanted n) (hover : stage.isEnded = false) (hs : Seen d seen cs)
    (h : Workable w d cs) (hw : OfRange wanted) :
    ∃ stage' w', stage.step d wanted w = .ok stage' w' ∧ Warm w w' ∧ stage'.At seen wanted (n + 1) := by
  cases stage with
  | seeks prev => exact seeks_step hst hs h hw
  | reads prev c k cd todo =>
    cases todo with
    | nil =>
      obtain ⟨stage', hr, hat⟩ := read_step hst hs
      exact ⟨stage', w, hr, .refl w, hat⟩
    | cons x todo => exact reads_step hst hs h hw
  | ended prev r => cases hover

end Walk

/-! ### A growing that others come between -/

/-- The client inode `c` can follow the tail `t`, and has the attributes of the new continuation but for those to do. --/
structure Filling (w : World) (d : Dentry) (cs : List Continuation) (t : Continuation) (c : ClientIno)
    (todo : List ContAttr) : Prop where
  last : cs.getLast? = some t
  follow : CanFollow w d cs t c
  data : ∃ i, w.disk.inode c = some i ∧ ∀ a ∉ todo, i.attr? a = some ((nextCd t).value a)

/-- The chain has grown by `c` behind `t`. --/
def GrownBy (cs : List Continuation) (t : Continuation) (c : ClientIno) : Prop :=
  ∃ init, cs = init ++ [relinked t c, appended t c]

/-- Where a growing has come, the file's chain being `cs`: the new continuation is in it from the moment its `next` is
    stored at the old tail. --/
def Growing.At (w : World) (d : Dentry) (cs : List Continuation) : Growing → Prop
  | .idle => True
  | .walks stage => ∃ n, stage.At (· = cs) (fun _ => false) n
  | .opens t => cs.getLast? = some t
  | .fills t c todo => Filling w d cs t c todo
  | .links t c todo => todo = ContAttr.inTurn ∧ Filling w d cs t c [] ∨ .next ∉ todo ∧ GrownBy cs t c
  | .loads t c => GrownBy cs t c

section Growth
variable {w w' u : World} {d : Dentry} {cs init : List Continuation} {t : Continuation} {c : ClientIno}
  {a : ContAttr} {todo : List ContAttr} {growing : Growing}

theorem Filling.warm (h : Filling w d cs t c todo) (hw : Warm w w') : Filling w' d cs t c todo :=
  ⟨h.last, h.follow.warm hw, hw.disk ▸ h.data⟩

theorem Growing.At.warm (h : growing.At w d cs) (hw : Warm w w') : growing.At w' d cs := by
  match growing, h with
  | .idle, h => exact h
  | .walks _, h => exact h
  | .opens _, h => exact h
  | .fills .., h => exact Filling.warm h hw
  | .links .., h => exact h.imp (fun h => ⟨h.1, h.2.warm hw⟩) id
  | .loads .., h => exact h

/-- What the step of a growing leaves: the file has a chain that came of the one it had. --/
def Advances (d : Dentry) (cs : List Continuation) (growing : Growing) (w : World) : Prop :=
  ∃ growing' w' cs', growing.step d w = .ok growing' w' ∧ Workable w' d cs' ∧ Later cs cs' ∧ growing'.At w' d cs'

/-- A step that leaves the chain as it is. --/
theorem advances_same {g : Growing} (hr : growing.step d w = .ok g w') (h : Workable u d cs) (hw : Warm u w')
    (hat : g.At u d cs) : Advances d cs growing w :=
  ⟨g, w', cs, hr, h.warm hw, .refl cs, hat.warm hw⟩

theorem walks_step {stage : Stage} (hg : (Growing.walks stage).At w d cs) (h : Workable w d cs) :
    Advances d cs (.walks stage) w := by
  obtain ⟨n, hst⟩ := hg
  have hs : Seen d (· = cs) cs := ⟨rfl, fun cs' he => he ▸ .refl cs, fun cs' he => he ▸ ⟨w, h⟩⟩
  have hw : OfRange fun _ => false := fun _ _ _ _ => rfl
  match stage with
  | .ended prev (.error e) => exact hst.elim
  | .ended prev (.ok (some x)) =>
    obtain ⟨-, cs', rfl, hfind⟩ := hst
    exact absurd (List.find?_some hfind) Bool.false_ne_true
  | .ended prev (.ok none) =>
    obtain ⟨-, cs', rfl, -, hlast⟩ := hst
    obtain ⟨init, t, rfl⟩ := h.exists_last
    rw [List.getLast?_concat] at hlast
    subst hlast
    exact advances_same (g := .opens t) rfl h (.refl w) List.getLast?_concat
  | .seeks prev =>
    obtain ⟨stage', w', hr, hwarm, hat⟩ := hst.step rfl hs h hw
    exact advances_same (bind_ok hr) h hwarm ⟨n + 1, hat⟩
  | .reads prev c k cd todo =>
    obtain ⟨stage', w', hr, hwarm, hat⟩ := hst.step rfl hs h hw
    exact advances_same (bind_ok hr) h hwarm ⟨n + 1, hat⟩

theorem opens_step (ht : cs.getLast? = some t) (h : Workable w d cs) : Advances d cs (.opens t) w := by
  have hto := h.last_onDisk ht
  have hpath : contPath ((t.chunkId + 1) % 2 ^ 64) t.chunkId (uinoToIno t.uino) = nextPath t := by
    have hle := hto.range.chunk_le
    rw [Nat.mod_eq_of_lt (by rw [hto.chunk]; omega), hto.uino, hto.range.ino_uino]
    rfl
  obtain ⟨w₁, hr₁, hw₁⟩ := (getname_reads h.calm.honest).calm h.calm
  have h₁ := h.warm hw₁
  cases ho : w₁.openPath (nextPath t) contMode with
  | error e =>
    obtain ⟨w₂, hr₂, hw₂⟩ := (filpOpen_fails h₁.calm.honest ho oCreatRdwr).calm h₁.calm
    obtain ⟨w₃, hr₃, hw₃⟩ := (putContinuation_reads t).calm (h₁.warm hw₂).calm
    rw [← hpath] at hr₂
    exact advances_same ((bind_ok hr₁).trans ((bind_ok hr₂).trans (bind_ok hr₃))) h (hw₁.trans (hw₂.trans hw₃)) trivial
  | ok cu =>
    obtain ⟨c, u⟩ := cu
    obtain ⟨_, w₂, hr₂, rfl, hw₂⟩ := (filpOpen_opens h₁.calm.honest ho oCreatRdwr).returns fun e x => h₁.calm.not_halted
    have hu : Workable u d cs := h₁.openPath ho
    obtain ⟨w₃, hr₃, hw₃⟩ := (dget_reads c).calm (hu.warm hw₂).calm
    have hfollow := h₁.canFollow ht ho
    obtain ⟨i, hi⟩ := hfollow.allocated
    have all (x : ContAttr) : x ∈ ContAttr.inTurn := by cases x <;> decide
    rw [← hpath] at hr₂
    exact advances_same ((bind_ok hr₁).trans ((bind_ok hr₂).trans (bind_ok hr₃))) hu (hw₂.trans hw₃)
      ⟨ht, hfollow, i, hi, fun x hx => absurd (all x) hx⟩

theorem follow_modify (h : CanFollow w d cs t c) (f : ClientInode → ClientInode) :
    CanFollow (w.setDisk (w.disk.modify c f)) d cs t c where
  range := h.range
  chunk := h.chunk
  pool := h.pool
  path := h.path
  live := h.live
  allocated := by
    obtain ⟨i, hi⟩ := h.allocated
    exact ⟨f i, by simp [World.setDisk, hi]⟩
  outside := h.outside
  apart := h.apart

theorem attr?_setXattr_of_ne {i : ClientInode} {b : ContAttr} (h : b ≠ a) (text : List Char) :
    (i.setXattr a text).attr? b = i.attr? b := by
  have hx : (i.setXattr a text).xattr b = i.xattr b := if_neg h
  unfold ClientInode.attr?
  rw [hx]

theorem fills_step (hg : Filling w d cs t c (a :: todo)) (h : Workable w d cs) : Advances d cs (.fills t c (a :: todo)) w := by
  obtain ⟨i, hi, hdata⟩ := hg.data
  have hto := h.last_onDisk hg.last
  have hfits : (nextCd t).Fits := nextCd_fits (by rw [hto.uino]; exact hto.range.uino_lt)
  obtain ⟨_, w', hr, rfl, hw⟩ := (getSetContData_stores h.calm.honest (inode?_of_live hg.follow.live hi) a
    ((nextCd t).value a)).returns fun e x => h.calm.not_halted
  refine advances_same (bind_ok hr) (h.modify_outside hg.follow.outside _) hw
    ⟨hg.last, follow_modify hg.follow _, _, by simp [World.setDisk, hi]; rfl, fun b hb => ?_⟩
  by_cases hba : b = a
  · subst hba
    exact ClientInode.attr?_setXattr_same (hfits b)
  · rw [attr?_setXattr_of_ne hba]
    exact hdata b fun hm => (List.mem_cons.mp hm).elim hba hb

/-- The chunk of the new continuation, as a growing computes it. --/
theorem toChunk_eq (h : Workable w d (init ++ [relinked t c, appended t c])) : (t.chunkId + 1) % 2 ^ 64 = c.chunk := by
  have hto : OnDisk w (relinked t c) := h.elem _ (by simp)
  obtain ⟨-, hpair, -⟩ := List.isChain_append.mp h.adjoins
  have hchunk : c.chunk = t.inode.chunk + 1 := (List.isChain_pair.mp hpair).chunk
  have hle := hto.range.chunk_le
  have hid : t.chunkId = t.inode.chunk := hto.chunk
  have hle : t.inode.chunk ≤ 15 := hle
  rw [hid, ← hchunk, Nat.mod_eq_of_lt (by omega)]

/-- The attribute that takes the new continuation into the chain. --/
theorem link_step (hg : Filling w d cs t c []) (h : Workable w d cs) : Advances d cs (.links t c ContAttr.inTurn) w := by
  obtain ⟨init, rfl⟩ : ∃ init, cs = init ++ [t] := ⟨_, (List.dropLast_append_getLast? t hg.last).symm⟩
  obtain ⟨i, hi, hdata⟩ := hg.data
  have hto := h.last_onDisk hg.last
  obtain ⟨it, hit, hitd⟩ := hto.allocated
  have hne : c ≠ t.inode := fun he => hg.follow.outside (by simp [he])
  have hnextfits := nextCd_fits (t := t) (by rw [hto.uino]; exact hto.range.uino_lt)
  have htailfits := (ClientInode.fits_of_contData? hitd).withNext hg.follow.range.uino_lt
  have hle := hto.range.chunk_le
  have hcd : (⟨makeUino ((t.chunkId + 1) % 2 ^ 64) c.ino, t.cd.prev, t.cd.start, t.cd.len⟩ : ContData) = tailCd t c := by
    rw [Nat.mod_eq_of_lt (by rw [hto.chunk]; omega), ← hg.follow.chunk]
    rfl
  obtain ⟨_, w', hr, rfl, hw⟩ := (getSetContData_stores h.calm.honest (inode?_of_live (h.live t (by simp)) hit) .next
    ((tailCd t c).value .next)).returns fun e x => h.calm.not_halted
  -- But for what is stored again, this is the state with both inodes written.
  have hstage : FileChain (growStage w t c 4 4) d (init ++ [relinked t c, appended t c]) := h.toFileChain.grown hg.follow
  have hkept : Kept (growStage w t c 4 4)
      (w.setDisk (w.disk.modify t.inode (·.setXattr .next (attrText ((tailCd t c).value .next))))) := by
    refine ⟨rfl, rfl, rfl, fun x j hj => ?_, fun _ hc => hc, fun _ vn hv => ⟨vn, hv, rfl, rfl⟩, Nat.le_refl _, id, id⟩
    have hj : ((w.disk.modify c (·.setFirst 4 (nextCd t))).modify t.inode (·.setFirst 4 (tailCd t c))).inode x = some j := hj
    by_cases hxt : x = t.inode
    · subst hxt
      rw [Disk.inode_modify_same, Disk.inode_modify_of_ne hne.symm, hit] at hj
      cases hj
      refine ⟨_, by simp [World.setDisk, hit]; rfl, ?_⟩
      exact (ClientInode.contData?_setFirst_next (k := 1) hitd htailfits).trans
        (ClientInode.contData?_setFirst_four htailfits it).symm
    · rw [Disk.inode_modify_of_ne hxt] at hj
      by_cases hxc : x = c
      · subst hxc
        rw [Disk.inode_modify_same, hi] at hj
        cases hj
        refine ⟨i, by simp [World.setDisk, Disk.modify, hxt, hi], ?_⟩
        rw [ClientInode.contData?_setFirst_four hnextfits]
        exact ClientInode.contData?_eq_some.mpr fun a => hdata a List.not_mem_nil
      · rw [Disk.inode_modify_of_ne hxc] at hj
        exact ⟨j, by simp [World.setDisk, Disk.modify, hxt, hj], rfl⟩
  have hwork : Workable (w.setDisk (w.disk.modify t.inode (·.setXattr .next (attrText ((tailCd t c).value .next))))) d
      (init ++ [relinked t c, appended t c]) :=
    ⟨hstage.kept hkept, h.sound.modify _ _, h.calm, h.fuel, h.readable⟩
  refine ⟨.links t c [.prev, .start, .len], w', _, ?_, hwork.warm hw, later_grown (h.last t hg.last) c,
    Or.inr ⟨by decide, init, rfl⟩⟩
  unfold ContAttr.inTurn Growing.step
  dsimp only
  rw [hcd]
  exact bind_ok hr

/-- The other attributes of the old tail, which it has already. --/
theorem relinks_step (ha : a ≠ .next) (htodo : .next ∉ todo) (hg : GrownBy cs t c) (h : Workable w d cs) :
    Advances d cs (.links t c (a :: todo)) w := by
  obtain ⟨init, rfl⟩ := hg
  have hmem : relinked t c ∈ init ++ [relinked t c, appended t c] := by simp
  obtain ⟨it, hit, hitd⟩ := (h.elem _ hmem).allocated
  have hchunk := toChunk_eq h
  have hcd : (⟨makeUino ((t.chunkId + 1) % 2 ^ 64) c.ino, t.cd.prev, t.cd.start, t.cd.len⟩ : ContData) = tailCd t c := by
    rw [hchunk]
    rfl
  obtain ⟨_, w', hr, rfl, hw⟩ := (getSetContData_stores h.calm.honest (inode?_of_live (h.live _ hmem) hit) a
    ((tailCd t c).value a)).returns fun e x => h.calm.not_halted
  have hsame : (it.setXattr a (attrText ((tailCd t c).value a))).contData? = it.contData? := by
    have hattr := ClientInode.contData?_eq_some.mp hitd
    rw [hitd, ClientInode.contData?_eq_some]
    intro b
    by_cases hba : b = a
    · subst hba
      exact ClientInode.attr?_setXattr_same (ClientInode.fits_of_contData? hitd b)
    · rw [attr?_setXattr_of_ne hba]
      exact hattr b
  refine advances_same (g := .links t c todo) ?_ (h.modify_kept hit hsame) hw (Or.inr ⟨htodo, init, rfl⟩)
  unfold Growing.step
  dsimp only
  rw [hcd]
  exact bind_ok hr

theorem loads_step (hg : GrownBy cs t c) (h : Workable w d cs) : Advances d cs (.loads t c) w := by
  obtain ⟨init, rfl⟩ := hg
  have hmem : appended t c ∈ init ++ [relinked t c, appended t c] := by simp
  have ho := h.elem _ hmem
  have hd : w.contData? c = some (nextCd t) := (contData?_of_live (h.live _ hmem)).trans ho.data
  obtain ⟨w', hr, hw⟩ := (loadContinuation_reads h.calm.honest (toChunk_eq h ▸ ho.pool) hd).calm h.calm
  exact advances_same (bind_ok hr) h hw trivial

/-- One step of a growing, while the file has the chain `cs`. --/
theorem Growing.At.step (hg : growing.At w d cs) (h : Workable w d cs) : Advances d cs growing w := by
  match growing, hg with
  | .idle, _ => exact advances_same rfl h (.refl w) ⟨0, rfl⟩
  | .walks stage, hg => exact walks_step hg h
  | .opens t, hg => exact opens_step hg h
  | .fills t c (a :: todo), hg => exact fills_step hg h
  | .fills t c [], hg => exact advances_same rfl h (.refl w) (Or.inl ⟨rfl, hg⟩)
  | .links t c (a :: todo), Or.inl ⟨ht, hg⟩ => exact ht ▸ link_step hg h
  | .links t c (a :: todo), Or.inr ⟨hn, hg⟩ =>
    have ⟨ha, htodo⟩ := not_or.mp (mt List.mem_cons.mpr hn)
    exact relinks_step (Ne.symm ha) htodo hg h
  | .links t c [], Or.inr ⟨_, hg⟩ => exact advances_same rfl h (.refl w) hg
  | .loads t c, hg => exact loads_step hg h

end Growth

/-! ### The rest of the system -/

/-- The old tail and the new inode while the attributes are being stored. --/
def Growing.coming : Growing → Option (Continuation × ClientIno)
  | .fills prev c _ => some (prev, c)
  | .links prev c _ => some (prev, c)
  | _ => none

/-- What the rest of the system does spares the file: its chain and the continuation that is coming are left alone, and
    the client file systems stay sound. --/
structure Spares (head : Dentry) (s : State) (w : World) : Prop where
  chain : ∀ cs, FileChain s.world head cs → FileChain w head cs
  path : ∀ t c, s.growing.coming = some (t, c) → w.disk.path (nextPath t) = s.world.disk.path (nextPath t)
  live : ∀ t c, s.growing.coming = some (t, c) → s.world.icache c = .live → w.icache c = .live
  data : ∀ t c i, s.growing.coming = some (t, c) → s.world.disk.inode c = some i →
    ∃ i', w.disk.inode c = some i' ∧ ∀ a, i'.attr? a = i.attr? a
  pool : w.pool = s.world.pool
  sound : Sound w
  calm : Calm w
  fuel : 16 < w.env.fuel
  readable : ∀ c, w.Readable c

/-- The events of a run in which nobody else works on the file's chain. --/
def Sparing (head : Dentry) (s : State) : Event → Prop
  | .other w => Spares head s w
  | _ => True

section Runs
variable {w u : World} {d : Dentry} {cs : List Continuation} {t : Continuation} {c : ClientIno} {todo : List ContAttr}
  {s s' : State} {e : Event} {es : List Event} {offset : Int} {seen : List Continuation → Prop} {n : Nat}

theorem Spares.workable (h : Spares d s u) (hw : Workable s.world d cs) : Workable u d cs :=
  ⟨h.chain cs hw.toFileChain, h.sound, h.calm, h.fuel, h.readable⟩

/-- What leaves all files as they are spares the file, while no continuation is coming. --/
theorem Spares.of_kept (hk : Kept s.world u) (hc : s.growing.coming = none) (hs : Sound s.world) (calm : Calm u)
    (fuel : 16 < u.env.fuel) (readable : ∀ c, u.Readable c) : Spares d s u where
  chain _ h := h.kept hk
  path _ _ h := absurd (hc.symm.trans h) nofun
  live _ _ h := absurd (hc.symm.trans h) nofun
  data _ _ _ h := absurd (hc.symm.trans h) nofun
  pool := hk.pool
  sound := hs.kept hk
  calm := calm
  fuel := fuel
  readable := readable

theorem Spares.filling (h : Spares d s u) (hw : Workable s.world d cs) (hc : s.growing.coming = some (t, c))
    (hf : Filling s.world d cs t c todo) : Filling u d cs t c todo := by
  obtain ⟨i, hi, hdata⟩ := hf.data
  obtain ⟨i', hi', hsame⟩ := h.data t c i hc hi
  have hnumber := (h.chain cs hw.toFileChain).number
  obtain ⟨vn, hv, -⟩ := hw.vnode
  refine ⟨hf.last, ⟨hf.follow.range, hf.follow.chunk, h.pool ▸ hf.follow.pool, (h.path t c hc).trans hf.follow.path,
    h.live t c hc hf.follow.live, ⟨i', hi'⟩, hf.follow.outside, fun vn' hv' => ?_⟩, i', hi', fun a ha => ?_⟩
  · rw [hnumber vn' hv', ← hw.number vn hv]
    exact hf.follow.apart vn hv
  · rw [hsame a]
    exact hdata a ha

theorem Spares.growing (h : Spares d s u) (hw : Workable s.world d cs) (hg : s.growing.At s.world d cs) :
    s.growing.At u d cs := by
  cases hgr : s.growing with
  | idle => trivial
  | walks stage => rwa [hgr] at hg
  | opens t => rwa [hgr] at hg
  | fills t c todo =>
    rw [hgr] at hg
    exact h.filling hw (by rw [hgr]; rfl) hg
  | links t c todo =>
    rw [hgr] at hg
    exact hg.imp (fun hl => ⟨hl.1, h.filling hw (by rw [hgr]; rfl) hl.2⟩) id
  | loads t c => rwa [hgr] at hg

/-- The search has come so far by the chains `seen`, the growing by the chain `cs` that the file has. --/
structure Inv (d : Dentry) (offset : Int) (seen : List Continuation → Prop) (n : Nat) (s : State) (cs : List Continuation) :
    Prop where
  work : Workable s.world d cs
  had : Seen d seen cs
  search : s.search.At seen (·.covers offset) n
  growing : s.growing.At s.world d cs

theorem ofRange_covers (offset : Int) : OfRange (·.covers offset) := fun a b hs hl => by
  simp only [ContData.covers, hs, hl]

theorem Seen.advance {cs' : List Continuation} (h : Seen d seen cs) (hw : Workable w d cs') (hl : Later cs cs') :
    Seen d (fun x => seen x ∨ x = cs') cs' where
  now := Or.inr rfl
  later x hx := by
    rcases hx with hx | rfl
    · exact (h.later x hx).trans hl
    · exact .refl x
  chain x hx := by
    rcases hx with hx | rfl
    · exact h.chain x hx
    · exact ⟨w, hw⟩

/-- What each step keeps. --/
theorem Inv.after_step (h : Inv d offset seen n s cs) (he : Sparing d s e) (hs : step d offset s e = some s') :
    ∃ cs', Inv d offset (fun x => seen x ∨ x = cs') (n + if e.isLook then 1 else 0) s' cs' := by
  have old : ∀ cs' x, seen x → seen x ∨ x = cs' := fun cs' x hx => Or.inl hx
  cases e with
  | look =>
    unfold step at hs
    cases hover : s.search.isEnded with
    | true => simp [hover] at hs
    | false =>
      obtain ⟨stage, w', hr, hw, hat⟩ := h.search.step hover h.had h.work (ofRange_covers offset)
      simp only [hover, Bool.false_eq_true, ↓reduceIte, hr, Option.some.injEq] at hs
      subst hs
      have hwork := h.work.warm hw
      exact ⟨cs, hwork, h.had.advance hwork (.refl cs), hat.mono (old cs), h.growing.warm hw⟩
  | grow =>
    obtain ⟨growing, w', cs', hr, hwork, hl, hat⟩ := h.growing.step h.work
    simp only [step, hr, Option.some.injEq] at hs
    subst hs
    exact ⟨cs', hwork, h.had.advance hwork hl, h.search.mono (old cs'), hat⟩
  | other u =>
    cases hs
    have hwork := he.workable h.work
    exact ⟨cs, hwork, h.had.advance hwork (.refl cs), h.search.mono (old cs), he.growing h.work h.growing⟩

/-- What a run keeps; each chain seen is one that the file had before, or in a state the run passes through. --/
theorem Inv.after_run (h : Inv d offset seen n s cs) (he : Run.Each (step d offset) (Sparing d) s es)
    (hrun : Run.run (step d offset) s es = some s') :
    ∃ seen' cs', Inv d offset seen' (n + es.countP Event.isLook) s' cs' ∧ ∀ x, seen' x → seen x ∨
      ∃ es₁ s₁, es₁ <+: es ∧ Run.run (step d offset) s es₁ = some s₁ ∧ Workable s₁.world d x := by
  induction es generalizing s n seen cs with
  | nil =>
    cases hrun
    exact ⟨seen, cs, h, fun x hx => Or.inl hx⟩
  | cons e es ih =>
    obtain ⟨u, hu, hrest⟩ := Option.bind_eq_some_iff.mp hrun
    obtain ⟨cs₁, h₁⟩ := h.after_step he.1 hu
    obtain ⟨seen', cs', h', hseen⟩ := ih h₁ (he.2 u hu) hrest
    refine ⟨seen', cs', ?_, fun x hx => ?_⟩
    · rw [List.countP_cons, Nat.add_comm (es.countP _), ← Nat.add_assoc]
      exact h'
    · have shift : ∀ {es₁ s₁}, Run.run (step d offset) u es₁ = some s₁ →
          Run.run (step d offset) s (e :: es₁) = some s₁ := fun hr => by
        rw [Run.run, hu]
        exact hr
      rcases hseen x hx with (hx | rfl) | ⟨es₁, s₁, hpre, hr, hw⟩
      · exact Or.inl hx
      · exact Or.inr ⟨[e], u, List.cons_prefix_cons.mpr ⟨rfl, List.nil_prefix⟩, shift rfl, h₁.work⟩
      · exact Or.inr ⟨e :: es₁, s₁, List.cons_prefix_cons.mpr ⟨rfl, hpre⟩, shift hr, hw⟩

theorem Stage.At.steps_le {stage : Stage} {wanted : ContData → Bool} (h : stage.At seen wanted n) (hs : Seen d seen cs) :
    n ≤ 91 := by
  match stage, h with
  | .seeks none, h => exact h ▸ Nat.zero_le 91
  | .seeks (some prev), ⟨cs', i, hcs, hi, _, hn⟩ =>
    obtain ⟨w, hw⟩ := hs.chain cs' hcs
    have h₁ := (List.getElem?_eq_some_iff.mp hi).1
    have h₂ := hw.length_le_fifteen
    omega
  | .reads .., ⟨cs', i, a, hcs, hi, _, _, _, _, _, hn⟩ =>
    obtain ⟨w, hw⟩ := hs.chain cs' hcs
    have h₁ := (List.getElem?_eq_some_iff.mp hi).1
    have h₂ := hw.length_le_fifteen
    omega
  | .ended _ (.ok (some _)), h => exact h.1
  | .ended _ (.ok none), h => exact h.1

/-- An answer is that of the search in one piece, on a chain that the file has had. --/
theorem Stage.At.answer {stage : Stage} (h : stage.At seen (·.covers offset) n) {junk : Bool} {r : Except Errno Continuation}
    (hr : stage.answer junk = some r) :
    ∃ x, seen x ∧ ∀ w, Workable w d x → ∃ w', getContAtOffset d offset w = .ok r w' := by
  match stage, h with
  | .ended _ (.ok (some next)), ⟨_, x, hx, hfind⟩ =>
    cases hr
    refine ⟨x, hx, fun w hw => ?_⟩
    obtain ⟨w', hr, -⟩ := (getContAtOffset_finds (hw.walkable.follows hw.calm.honest) hw.length_lt hfind).reads.calm hw.calm
    exact ⟨w', hr⟩
  | .ended _ (.ok none), ⟨_, x, hx, hfind, _⟩ =>
    cases hr
    refine ⟨x, hx, fun w hw => ?_⟩
    obtain ⟨w', hr, -⟩ := (getContAtOffset_enoent (hw.walkable.follows hw.calm.honest) hw.length_lt hfind).calm hw.calm
    exact ⟨w', hr⟩
  | .seeks _, _ => cases hr
  | .reads .., _ => cases hr

/-- A search between whose steps the file grows, any number of times, and whatever spares the file is done: it never
    stops, ends after at most 91 steps of its own, and answers as `chunkfs_get_cont_at_offset` in one piece would have in
    a state of the run. --/
theorem search_in_one_piece (h : Workable w d cs) (offset : Int) (es : List Event)
    (he : Run.Each (step d offset) (Sparing d) (begin w) es) (hrun : Run.run (step d offset) (begin w) es = some s) :
    es.countP Event.isLook ≤ 91 ∧ (s.search.isEnded = false → (step d offset s .look).isSome = true) ∧
      (step d offset s .grow).isSome = true ∧
      ∀ junk r, s.search.answer junk = some r →
        ∃ es₁ s₁ w₁, es₁ <+: es ∧ Run.run (step d offset) (begin w) es₁ = some s₁ ∧
          getContAtOffset d offset s₁.world = .ok r w₁ := by
  have hstart : Inv d offset (· = cs) 0 (begin w) cs :=
    ⟨h, ⟨rfl, fun x hx => hx ▸ .refl cs, fun x hx => hx ▸ ⟨w, h⟩⟩, rfl, trivial⟩
  obtain ⟨seen, cs', hinv, hseen⟩ := hstart.after_run he hrun
  refine ⟨?_, fun hover => ?_, ?_, fun junk r hr => ?_⟩
  · have := hinv.search.steps_le hinv.had
    rwa [Nat.zero_add] at this
  · obtain ⟨stage, w', hr, -⟩ := hinv.search.step hover hinv.had hinv.work (ofRange_covers offset)
    simp [step, hover, hr]
  · obtain ⟨growing, w', -, hr, -⟩ := hinv.growing.step hinv.work
    simp [step, hr]
  · obtain ⟨x, hx, hanswer⟩ := hinv.search.answer (d := d) hr
    rcases hseen x hx with rfl | ⟨es₁, s₁, hpre, hr₁, hw₁⟩
    · obtain ⟨w', hr⟩ := hanswer w h
      exact ⟨[], begin w, w', List.nil_prefix, rfl, hr⟩
    · obtain ⟨w', hr⟩ := hanswer s₁.world hw₁
      exact ⟨es₁, s₁, w', hpre, hr₁, hr⟩

end Runs

/-- The offset behind the only segment is searched for while the second is made: the tail's `next` is read before it is
    stored, and the search ends after the growing. --/
theorem search_in_one_piece_behind_end :
    let w := threeChunks
    let es : List Event := .other (w.withEnv { quietEnv with now := 9 }) ::
      (List.replicate 2 .look ++ List.replicate 21 .grow ++ List.replicate 5 .look)
    ∃ s, Run.run (step firstDentry 40960) (begin w) es = some s ∧
      es.countP Event.isLook ≤ 91 ∧ (s.search.isEnded = false → (step firstDentry 40960 s .look).isSome = true) ∧
      (step firstDentry 40960 s .grow).isSome = true ∧
      ∀ junk r, s.search.answer junk = some r →
        ∃ es₁ s₁ w₁, es₁ <+: es ∧ Run.run (step firstDentry 40960) (begin w) es₁ = some s₁ ∧
          getContAtOffset firstDentry 40960 s₁.world = .ok r w₁ := by
  intro w es
  obtain ⟨c, h, -⟩ := threeChunks_workable
  have hends : (Run.run (step firstDentry 40960) (begin w) es).isSome = true := by decide +kernel
  obtain ⟨s, hs⟩ := Option.isSome_iff_exists.mp hends
  have he : Obliging { quietEnv with now := 9 } := ⟨rfl, quietEnv_obliging.ialloc, quietEnv_obliging.fuel⟩
  have hspares : Spares firstDentry (begin w) (w.withEnv { quietEnv with now := 9 }) :=
    .of_kept (.withEnv w he) rfl h.sound he.script he.fuel h.readable
  refine ⟨s, hs, search_in_one_piece h 40960 es ⟨hspares, fun t _ => Run.each_of_forall fun e he s => ?_⟩ hs⟩
  simp only [List.mem_append, List.mem_replicate] at he
  rcases he with (⟨-, rfl⟩ | ⟨-, rfl⟩) | ⟨-, rfl⟩ <;> trivial

end Chunkfs.Overlap
