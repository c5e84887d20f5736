import Chunkfs.Theorems.Walk

/-! The walk along a chain by `chunkfs_get_next_inode`, and copying an inode up. On a chain whose inodes are
    all in memory (`Chain`) the walk by number goes through the same inodes as the walk by path, so the size
    copied up is the sum of the sizes of the chain. -/

namespace Chunkfs
open Exec Word

/-- A chain whose client inodes are all in memory. --/
structure Chain (w : World) (d : Dentry) (cs : List Continuation) : Prop extends Linked w d cs where
  live : ∀ c ∈ cs, w.icache c.inode = .live

theorem Chain.walkable {w : World} {d : Dentry} {cs : List Continuation} (h : Chain w d cs) : Walkable w d cs :=
  ⟨h.toLinked, fun c hc => Or.inl (h.live c hc)⟩

/-- From `prev` on, successive calls of `chunkfs_get_next_inode` give the inodes of the list and then stop. --/
inductive FollowsInodes (w : World) (v : Nat) : Option ClientIno → List ClientIno → Prop where
  | nil {prev : Option ClientIno} (stop : ∀ w', Warm w w' → Reads (getNextInode v prev) w' (.ok none)) :
      FollowsInodes w v prev []
  | cons {prev : Option ClientIno} {c : ClientIno} {cs : List ClientIno} (live : w.icache c = .live)
      (next : ∀ w', Warm w w' → Reads (getNextInode v prev) w' (.ok (some c)))
      (rest : FollowsInodes w v (some c) cs) : FollowsInodes w v prev (c :: cs)

section Step
variable {w : World} {v : Nat} {c : ClientIno}

theorem igetLocked_reads (h : Honest w) (hc : w.icache c = .live) : Reads (igetLocked c) w true := by
  refine (ask_reads h).bind fun w₁ h₁ => ?_
  refine Reads.bind (a := ⟨⟩) (.of_ok (modify_apply _ w₁) ?_) fun w₂ _ => .pure _ w₂
  have hne : w₁.icache c ≠ .absent := by
    rw [h₁.live hc]
    simp
  simp only [hne, ↓reduceIte]
  exact Warm.refl w₁

/-- The end of `chunkfs_get_next_inode` on an inode in memory. --/
theorem found_reads (h : Honest w) (hc : w.icache c = .live) :
    Reads (do
      if ← igetLocked c then
        if (← get).icache c = .bad then return .error .eio else return .ok (some c)
      else throw .bug : Kern (Except Errno (Option ClientIno))) w (.ok (some c)) := by
  refine (igetLocked_reads h hc).bind fun w₁ h₁ => ?_
  rw [if_pos rfl]
  refine get_bind_reads ?_
  rw [if_neg (by rw [h₁.live hc]; simp)]
  exact .pure _ w₁

theorem getNextInode_head (h : Honest w) {vn : Vnode} (hv : w.vnode v = some vn) (hn : vn.client = some c)
    (hc : w.icache c = .live) : Reads (getNextInode v none) w (.ok (some c)) := by
  unfold getNextInode
  refine (vnodeAt_reads hv).bind fun w₁ h₁ => ?_
  simp only [hn]
  exact found_reads (h.warm h₁) (h₁.live hc)

theorem getNextInode_end (h : Honest w) {cd : ContData} (hd : w.contData? c = some cd) (hn : cd.next = 0) :
    Reads (getNextInode v (some c)) w (.ok none) := by
  unfold getNextInode
  refine (getContData_reads h hd).bind fun w₁ _ => ?_
  simp only [hn, ↓reduceIte]
  exact .pure _ w₁

/-- The next inode is the one that `next` names. --/
theorem getNextInode_named (h : Honest w) {cd : ContData} (hd : w.contData? c = some cd) (hn : cd.next ≠ 0)
    (hp : uinoToChunkId cd.next ∈ w.pool) (hc : w.icache ⟨uinoToChunkId cd.next, uinoToIno cd.next⟩ = .live) :
    Reads (getNextInode v (some c)) w (.ok (some ⟨uinoToChunkId cd.next, uinoToIno cd.next⟩)) := by
  unfold getNextInode
  refine (getContData_reads h hd).bind fun w₁ h₁ => ?_
  simp only [hn, ↓reduceIte]
  refine get_bind_reads ?_
  rw [h₁.pool, findChunk_of_mem hp]
  exact found_reads (h.warm h₁) (h₁.live hc)

theorem getNextInode_next (h : Honest w) {cd : ContData} {c' : ClientIno} (hd : w.contData? c = some cd)
    (hr : c'.InRange) (hn : cd.next = c'.uino) (hp : c'.chunk ∈ w.pool) (hc : w.icache c' = .live) :
    Reads (getNextInode v (some c)) w (.ok (some c')) := by
  have hnext : (⟨uinoToChunkId cd.next, uinoToIno cd.next⟩ : ClientIno) = c' := by rw [hn, hr.chunkId_uino, hr.ino_uino]
  have hreads := getNextInode_named (v := v) h hd (by rw [hn]; exact hr.uino_ne_zero)
    (by rw [hn, hr.chunkId_uino]; exact hp) (by rw [hnext]; exact hc)
  rwa [hnext] at hreads

end Step

section Walks
variable {w : World} {d : Dentry} {cs : List Continuation}

theorem followsInodes_tail (hh : Honest w) {v : Nat} : ∀ {a : Continuation} {rest : List Continuation},
    (∀ c ∈ a :: rest, OnDisk w c ∧ w.icache c.inode = .live) → (a :: rest).IsChain (Links w) →
      (∀ c ∈ (a :: rest).getLast?, c.cd.next = 0) → FollowsInodes w v (some a.inode) (rest.map (·.inode))
  | a, [], helem, _, hlast => .nil fun w' hw => by
    obtain ⟨ha, hlive⟩ := helem a (by simp)
    exact getNextInode_end (hh.warm hw) (hw.contData? (by rw [contData?_of_live hlive]; exact ha.data))
      (hlast a (by simp))
  | a, b :: rest, helem, hlinks, hlast => by
    obtain ⟨ha, halive⟩ := helem a (by simp)
    obtain ⟨hb, hblive⟩ := helem b (by simp)
    obtain ⟨hab, hrest⟩ := List.isChain_cons_cons.mp hlinks
    refine .cons hblive (fun w' hw => ?_) (followsInodes_tail hh (fun c hc => helem c (List.mem_cons_of_mem _ hc))
      hrest fun c hc => hlast c (by rw [List.getLast?_cons_cons]; exact hc))
    exact getNextInode_next (hh.warm hw) (hw.contData? (by rw [contData?_of_live halive]; exact ha.data)) hb.range
      (by rw [hab.next, hb.uino]) (hw.pool ▸ hb.pool) (hw.live hblive)

/-- The walk by inode number gives exactly the inodes of the chain. --/
theorem Chain.followsInodes (h : Chain w d cs) (hh : Honest w) :
    FollowsInodes w d.inode none (cs.map (·.inode)) := by
  obtain ⟨vn, hv, hvc, -⟩ := h.head.vnode
  obtain ⟨c, rest, rfl, hc⟩ := h.first
  have hvc' : vn.client = some c.inode := by rw [hc]; exact hvc
  exact .cons (h.live c (by simp))
    (fun w' hw => getNextInode_head (hh.warm hw) (hw.vnode ▸ hv) hvc' (hw.live (h.live c (by simp))))
    (followsInodes_tail hh (fun x hx => ⟨h.elem x hx, h.live x hx⟩) h.links h.last)

/-- The walk by inode number along the whole chain, as `chunkfs_copy_up_inode` makes it, with the inodes met. --/
def walkInodes : Nat → Nat → Option ClientIno → Kern (Except Errno (List ClientIno))
  | 0, _, _ => throw .hang
  | fuel + 1, v, prev => do
    match ← getNextInode v prev with
    | .error e => return .error e
    | .ok none => return .ok []
    | .ok (some next) =>
      match ← walkInodes fuel v (some next) with
      | .error e => return .error e
      | .ok rest => return .ok (next :: rest)

theorem walkInodes_reads {v : Nat} {prev : Option ClientIno} {l : List ClientIno} (h : FollowsInodes w v prev l)
    {fuel : Nat} (hf : l.length < fuel) : ∀ w₁, Warm w w₁ → Reads (walkInodes fuel v prev) w₁ (.ok l) := by
  induction h generalizing fuel with
  | @nil prev stop =>
    intro w₁ h₁
    obtain ⟨n, rfl, -⟩ := fuel_succ hf
    refine (stop w₁ h₁).bind fun w₂ _ => ?_
    exact .pure _ w₂
  | @cons prev x cs live next rest ih =>
    intro w₁ h₁
    obtain ⟨n, rfl, hn⟩ := fuel_succ hf
    refine (next w₁ h₁).bind fun w₂ h₂ => ?_
    refine (ih (Nat.lt_of_succ_le hn) w₂ (h₁.trans h₂)).bind fun w₃ _ => ?_
    exact .pure _ w₃

/-- The sizes of inodes added up in a `loff_t`. --/
def sumSizes (w : World) (l : List ClientIno) (total : Int) : Int := l.foldl (fun t c => s64 (t + w.iSize c)) total

theorem sumSizes_cons (c : ClientIno) (l : List ClientIno) (total : Int) :
    sumSizes w (c :: l) total = sumSizes w l (s64 (total + w.iSize c)) := rfl

theorem Warm.iSize {w' : World} {c : ClientIno} (hw : Warm w w') (hc : w.icache c = .live) :
    w'.iSize c = w.iSize c := by
  simp only [World.iSize, World.inode?, hw.live hc, hc, hw.disk]

theorem sumSizes_warm {w' : World} (hw : Warm w w') {l : List ClientIno} (hl : ∀ c ∈ l, w.icache c = .live)
    (total : Int) : sumSizes w' l total = sumSizes w l total := by
  induction l generalizing total with
  | nil => rfl
  | cons c l ih =>
    rw [sumSizes_cons, sumSizes_cons, hw.iSize (hl c (by simp))]
    exact ih (fun x hx => hl x (List.mem_cons_of_mem _ hx)) _

theorem totalSize_reads {v : Nat} {prev : Option ClientIno} {l : List ClientIno} (h : FollowsInodes w v prev l)
    (fuel : Nat) (hf : l.length < fuel) (total : Int) :
    ∀ w₁, Warm w w₁ → Reads (totalSize fuel v prev total) w₁ (sumSizes w l total) := by
  induction h generalizing fuel total with
  | @nil prev stop =>
    intro w₁ h₁
    obtain ⟨n, rfl, -⟩ := fuel_succ hf
    refine (stop w₁ h₁).bind fun w₂ _ => ?_
    exact .pure _ w₂
  | @cons prev c l live next rest ih =>
    intro w₁ h₁
    obtain ⟨n, rfl, hn⟩ := fuel_succ hf
    refine (next w₁ h₁).bind fun w₂ h₂ => get_bind_reads ?_
    rw [(h₁.trans h₂).iSize live]
    exact ih n (Nat.lt_of_succ_le hn) _ w₂ (h₁.trans h₂)

end Walks

/-! ### Updates of a world -/

namespace World

/-- A change of the client file systems only. --/
def setDisk (w : World) (d : Disk) : World := { w with disk := d }

/-- A change of one chunkfs inode only. --/
def setVnode (w : World) (v : Nat) (vn : Vnode) : World :=
  { w with vnode := fun x => if x = v then some vn else w.vnode x }

end World

theorem Warm.setDisk {w w' : World} (h : Warm w w') (d : Disk) : Warm (w.setDisk d) (w'.setDisk d) :=
  ⟨rfl, h.pool, h.vnode, h.vnext, h.script, h.env, h.icache⟩

theorem Warm.setVnode {w w' : World} (h : Warm w w') (v : Nat) (vn : Vnode) :
    Warm (w.setVnode v vn) (w'.setVnode v vn) :=
  ⟨h.disk, h.pool, by simp only [World.setVnode, h.vnode], h.vnext, h.script, h.env, h.icache⟩

@[simp] theorem World.setVnode_setVnode (w : World) (v : Nat) (vn vn' : Vnode) :
    (w.setVnode v vn).setVnode v vn' = w.setVnode v vn' := by
  simp only [World.setVnode, World.mk.injEq, and_true, true_and]
  funext x
  by_cases hx : x = v <;> simp [hx]

@[simp] theorem World.setVnode_vnode_same (w : World) (v : Nat) (vn : Vnode) : (w.setVnode v vn).vnode v = some vn := by
  simp [setVnode]

theorem modifyVnode_apply {w : World} {v : Nat} {vn : Vnode} (f : Vnode → Vnode) (h : w.vnode v = some vn) :
    modifyVnode v f w = .ok ⟨⟩ (w.setVnode v (f vn)) := by
  simp only [modifyVnode, modify_apply, h, Option.map_some]
  rfl

/-- A chain survives a change that keeps its data and names, its head in memory, and the identity of its
    chunkfs inode. --/
theorem Linked.frame {w w' : World} {d : Dentry} {cs : List Continuation} (h : Linked w d cs)
    (data : ∀ c ∈ cs, w'.disk.contData? c.inode = some c.cd)
    (path : ∀ p, (w.disk.path p).isSome → w'.disk.path p = w.disk.path p) (pool : w'.pool = w.pool)
    (live : w'.icache d.client = .live)
    (vnode : ∀ vn, w.vnode d.inode = some vn →
      ∃ vn', w'.vnode d.inode = some vn' ∧ vn'.client = vn.client ∧ vn'.ino = vn.ino) : Linked w' d cs where
  head := by
    obtain ⟨vn, hv, hc, hk⟩ := h.head.vnode
    obtain ⟨vn', hv', hc', hi'⟩ := vnode vn hv
    exact ⟨live, vn', hv', hc'.trans hc, hi' ▸ hk⟩
  first := h.first
  elem c hc :=
    have e := h.elem c hc
    ⟨e.range, pool ▸ e.pool, e.chunk, e.uino, data c hc⟩
  links := h.links.imp fun a b l => ⟨l.next, by rw [path _ (by rw [l.path]; rfl)]; exact l.path⟩
  last := h.last
  apart vn' hv' c hc := by
    obtain ⟨vn, hv, -, -⟩ := h.head.vnode
    obtain ⟨vn'', hv'', -, hi''⟩ := vnode vn hv
    rw [hv''] at hv'
    cases hv'
    rw [hi'']
    exact h.apart vn hv c hc
  nodup := h.nodup

/-- No chunkfs inode lies at an address not given out yet. --/
def Fresh (w : World) : Prop := ∀ v, w.vnext ≤ v → w.vnode v = none

/-- What every operation but growth leaves of a world: the names and the continuation data on disk, the inodes in
    memory, and the identity of the chunkfs inodes. --/
structure Kept (w w' : World) : Prop where
  pool : w'.pool = w.pool
  dir : w'.disk.dir = w.disk.dir
  path : w'.disk.path = w.disk.path
  inode : ∀ c i, w.disk.inode c = some i → ∃ i', w'.disk.inode c = some i' ∧ i'.contData? = i.contData?
  live : ∀ c, w.icache c = .live → w'.icache c = .live
  vnode : ∀ v vn, w.vnode v = some vn → ∃ vn', w'.vnode v = some vn' ∧ vn'.client = vn.client ∧ vn'.ino = vn.ino
  vnext : w.vnext ≤ w'.vnext
  fresh : Fresh w → Fresh w'
  ialloc : (∀ k, w.env.ialloc k < 2 ^ 28) → ∀ k, w'.env.ialloc k < 2 ^ 28

namespace Kept
variable {w w' w'' : World}

theorem trans (h : Kept w w') (h' : Kept w' w'') : Kept w w'' where
  pool := h'.pool.trans h.pool
  dir := h'.dir.trans h.dir
  path := h'.path.trans h.path
  inode c i hi := by
    obtain ⟨i', hi', hcd⟩ := h.inode c i hi
    obtain ⟨i'', hi'', hcd'⟩ := h'.inode c i' hi'
    exact ⟨i'', hi'', hcd'.trans hcd⟩
  live c hc := h'.live c (h.live c hc)
  vnode v vn hv := by
    obtain ⟨vn', hv', hc, hi⟩ := h.vnode v vn hv
    obtain ⟨vn'', hv'', hc', hi'⟩ := h'.vnode v vn' hv'
    exact ⟨vn'', hv'', hc'.trans hc, hi'.trans hi⟩
  vnext := h.vnext.trans h'.vnext
  fresh hw := h'.fresh (h.fresh hw)
  ialloc hw := h'.ialloc (h.ialloc hw)

theorem setVnode (w : World) {v : Nat} {vn : Vnode} (hv : w.vnode v = some vn) (vn' : Vnode)
    (hc : vn'.client = vn.client) (hi : vn'.ino = vn.ino) : Kept w (w.setVnode v vn') where
  pool := rfl
  dir := rfl
  path := rfl
  inode _ i hi := ⟨i, hi, rfl⟩
  live _ hc := hc
  vnode x vx hx := by
    by_cases hxv : x = v
    · rw [hxv, hv] at hx
      cases hx
      exact ⟨vn', by simp [World.setVnode, hxv], hc, hi⟩
    · exact ⟨vx, by simp [World.setVnode, hxv, hx], rfl, rfl⟩
  vnext := Nat.le_refl _
  fresh hw x hx := by
    have hxv : x ≠ v := fun he => by
      rw [← he, hw x hx] at hv
      cases hv
    simp [World.setVnode, hxv, hw x hx]
  ialloc hw := hw

theorem modify (w : World) (c : ClientIno) {f : ClientInode → ClientInode} (hf : ∀ i, (f i).contData? = i.contData?) :
    Kept w (w.setDisk (w.disk.modify c f)) where
  pool := rfl
  dir := rfl
  path := rfl
  inode x i hi := by
    by_cases hx : x = c
    · exact ⟨f i, by simp [World.setDisk, Disk.modify, hx, hx ▸ hi], hf i⟩
    · exact ⟨i, by simp [World.setDisk, Disk.modify, hx, hi], rfl⟩
  live _ hc := hc
  vnode _ vn hv := ⟨vn, hv, rfl, rfl⟩
  vnext := Nat.le_refl _
  fresh hw := hw
  ialloc hw := hw

theorem contData? (h : Kept w w') {c : ClientIno} {cd : ContData} (hc : w.disk.contData? c = some cd) :
    w'.disk.contData? c = some cd := by
  unfold Disk.contData? at hc ⊢
  cases hi : w.disk.inode c with
  | none => rw [hi] at hc; cases hc
  | some i =>
    obtain ⟨i', hi', hcd⟩ := h.inode c i hi
    rw [hi] at hc
    rw [hi']
    exact hcd.trans hc

end Kept

theorem Warm.kept {w w' : World} (h : Warm w w') : Kept w w' where
  pool := h.pool
  dir := by rw [h.disk]
  path := by rw [h.disk]
  inode _ i hi := ⟨i, by rw [h.disk]; exact hi, rfl⟩
  live _ hc := h.live hc
  vnode _ vn hv := ⟨vn, by rw [h.vnode]; exact hv, rfl, rfl⟩
  vnext := Nat.le_of_eq h.vnext.symm
  fresh hw v hv := by
    rw [h.vnext] at hv
    rw [h.vnode]
    exact hw v hv
  ialloc hw := by rw [h.env]; exact hw

section Kept
variable {w w' : World} {d : Dentry} {cs : List Continuation}

theorem Linked.kept (h : Linked w d cs) (hk : Kept w w') : Linked w' d cs :=
  h.frame (fun c hc => hk.contData? (h.elem c hc).data) (fun p _ => by rw [hk.path]) hk.pool
    (hk.live _ h.head.live) (hk.vnode d.inode)

theorem Linked.warm (h : Linked w d cs) (hw : Warm w w') : Linked w' d cs := h.kept hw.kept

theorem Chain.kept (h : Chain w d cs) (hk : Kept w w') : Chain w' d cs where
  toLinked := h.toLinked.kept hk
  live c hc := hk.live _ (h.live c hc)

theorem Chain.warm (h : Chain w d cs) (hw : Warm w w') : Chain w' d cs := h.kept hw.kept

end Kept

/-- Copying up takes the attributes of the client inode given and the size of the whole chain. --/
theorem copyUpInode_calm {w : World} {d : Dentry} {cs : List Continuation} (h : Chain w d cs) (hc : Calm w)
    (hf : cs.length < w.env.fuel) {vn : Vnode} (hv : w.vnode d.inode = some vn) {client : ClientIno} {i : ClientInode}
    (hi : w.inode? client = some i) :
    ∃ w', copyUpInode d.inode client w = .ok () w' ∧
      Warm (w.setVnode d.inode { vn with attrs := i.attrs, size := sumSizes w (cs.map (·.inode)) 0 }) w' := by
  have h₁ := h.kept (.setVnode w hv { vn with attrs := i.attrs } rfl rfl)
  have hc₁ : Calm (w.setVnode d.inode { vn with attrs := i.attrs }) := hc
  obtain ⟨w₂, hr, hw₂⟩ := (totalSize_reads (h₁.followsInodes hc₁.honest) w.env.fuel
    (by simpa using hf) 0 _ (Warm.refl _)).calm hc₁
  have hv₂ : w₂.vnode d.inode = some { vn with attrs := i.attrs } := by
    rw [hw₂.vnode]
    simp [World.setVnode]
  refine ⟨w₂.setVnode d.inode { vn with attrs := i.attrs, size := sumSizes w (cs.map (·.inode)) 0 }, ?_, ?_⟩
  · unfold copyUpInode
    rw [bind_ok (get_apply w), hi]
    simp only
    rw [bind_ok (modifyVnode_apply _ hv), bind_ok (get_apply _)]
    exact (bind_ok hr).trans (modifyVnode_apply _ hv₂)
  · have := hw₂.setVnode d.inode { vn with attrs := i.attrs, size := sumSizes w (cs.map (·.inode)) 0 }
    rwa [World.setVnode_setVnode] at this

end Chunkfs
