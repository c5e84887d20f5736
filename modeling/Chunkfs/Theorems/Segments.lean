import Chunkfs.Theorems.Io
import Chunkfs.Lib.Flat

/-! Files as chunkfs makes them: segment `i` begins at `segLen * i` and lies `i` chunks behind the head. The
    position alone decides the segment, and where there is none yet, the next one can be made as long as no
    stale file has its name (`Ready`). -/

namespace Chunkfs
open Exec Word

/-- `b` is the segment after `a`. --/
structure Adjoins (a b : Continuation) : Prop where
  start : b.cd.start = a.cd.start + segLen
  prev : b.cd.prev = a.uino
  chunk : b.inode.chunk = a.inode.chunk + 1

/-- The chain of a file made by chunkfs. --/
structure FileChain (w : World) (d : Dentry) (cs : List Continuation) : Prop extends Chain w d cs where
  number : ∀ vn, w.vnode d.inode = some vn → vn.ino = d.client.uino
  origin : ∀ c ∈ cs.head?, c.cd.start = 0 ∧ c.cd.prev = 0
  adjoins : cs.IsChain Adjoins
  len : ∀ c ∈ cs, c.cd.len = segLen

/-- A quantity that grows by `k` from neighbour to neighbour. --/
theorem isChain_getElem? {α : Type} {f : α → Nat} {k : Nat} : ∀ {l : List α} {b : Nat},
    (l.IsChain fun x y => f y = f x + k) → (∀ x ∈ l.head?, f x = b) → ∀ {i : Nat} {x : α}, l[i]? = some x → f x = b + k * i
  | [], _, _, _, _, _, hx => by simp at hx
  | y :: l, b, h, h₀, 0, x, hx => by
    simp only [List.getElem?_cons_zero, Option.some.injEq] at hx
    rw [← hx, h₀ y (by simp)]
    omega
  | y :: l, b, h, h₀, i + 1, x, hx => by
    rw [List.getElem?_cons_succ] at hx
    have hl : ∀ z ∈ l.head?, f z = b + k := fun z hz => by
      cases l with
      | nil => cases hz
      | cons a l =>
        cases hz
        rw [(List.isChain_cons_cons.mp h).1, h₀ y (by simp)]
    have := isChain_getElem? (List.IsChain.tail h) hl hx
    rw [this, Nat.mul_succ]
    omega

/-- The search for an element that only one index can satisfy. --/
theorem find?_eq_getElem? {α : Type} {P : α → Bool} {l : List α} {q : Nat}
    (h : ∀ i x, l[i]? = some x → (P x = true ↔ i = q)) : l.find? P = l[q]? := by
  cases hq : l[q]? with
  | none =>
    refine List.find?_eq_none.mpr fun x hx hP => ?_
    obtain ⟨i, hi⟩ := List.mem_iff_getElem?.mp hx
    rw [(h i x hi).mp hP, hq] at hi
    cases hi
  | some y =>
    obtain ⟨hlt, hy⟩ := List.getElem?_eq_some_iff.mp hq
    refine List.find?_eq_some_iff_getElem.mpr ⟨(h q y hq).mpr rfl, q, hlt, hy, fun j hj => ?_⟩
    have hj' : l[j]? = some l[j] := List.getElem?_eq_getElem (hj.trans hlt)
    have : P l[j] ≠ true := fun hP => absurd ((h j _ hj').mp hP) (by omega)
    simpa using this

section FileChain
variable {w w' : World} {d : Dentry} {cs : List Continuation} {c : Continuation} {i : Nat}

namespace FileChain

theorem start (h : FileChain w d cs) (hi : cs[i]? = some c) : c.cd.start = segLen * i := by
  have := isChain_getElem? (f := fun c : Continuation => c.cd.start) (k := segLen) (b := 0)
    (h.adjoins.imp fun a b hab => hab.start) (fun x hx => (h.origin x hx).1) hi
  omega

theorem chunk (h : FileChain w d cs) (hi : cs[i]? = some c) : c.inode.chunk = d.client.chunk + i := by
  have := isChain_getElem? (f := fun c : Continuation => c.inode.chunk) (k := 1) (b := d.client.chunk)
    (h.adjoins.imp fun a b hab => hab.chunk) (fun x hx => ?_) hi
  · omega
  · obtain ⟨y, rest, rfl, hy⟩ := h.first
    cases hx
    rw [hy]

theorem ne_nil (h : FileChain w d cs) : cs ≠ [] := by
  obtain ⟨c, rest, rfl, -⟩ := h.first
  exact List.cons_ne_nil _ _

theorem length_le (h : FileChain w d cs) : d.client.chunk + cs.length ≤ 16 := by
  have hne := List.length_pos_of_ne_nil h.ne_nil
  obtain ⟨c, hc⟩ : ∃ c, cs[cs.length - 1]? = some c := ⟨_, List.getElem?_eq_getElem (by omega)⟩
  have h₁ := h.chunk hc
  have h₂ := (h.elem c (List.mem_of_getElem? hc)).range.chunk_le
  omega

theorem chunk_pos (h : FileChain w d cs) : 1 ≤ d.client.chunk := by
  obtain ⟨c, rest, rfl, hc⟩ := h.first
  rw [← hc]
  exact (h.elem c (by simp)).range.chunk_pos

/-- The position decides the segment. --/
theorem find_covers (h : FileChain w d cs) {p : Nat} (hp : p < 2 ^ 63) :
    cs.find? (·.cd.covers p) = cs[p / segLen]? := by
  refine find?_eq_getElem? fun i c hi => ?_
  have hmem := List.mem_of_getElem? hi
  have hlen := h.length_le
  have hlt := (List.getElem?_eq_some_iff.mp hi).1
  rw [covers_iff (by omega) (by omega), h.start hi, h.len c hmem]
  unfold segLen
  omega

/-- The last segment. --/
theorem last_eq (h : FileChain w d cs) {t : Continuation} (ht : cs.getLast? = some t) :
    t.cd.start = segLen * (cs.length - 1) ∧ t.inode.chunk = d.client.chunk + (cs.length - 1) ∧
      (nextCd t).start = segLen * cs.length := by
  rw [List.getLast?_eq_getElem?] at ht
  have hs := h.start ht
  have hl := h.len t (List.mem_of_getElem? ht)
  have hlen := h.length_le
  have hne := List.length_pos_of_ne_nil h.ne_nil
  refine ⟨hs, h.chunk ht, ?_⟩
  simp only [nextCd, hs, hl]
  unfold segLen
  omega

theorem kept (h : FileChain w d cs) (hk : Kept w w') : FileChain w' d cs := by
  refine ⟨h.toChain.kept hk, fun vn hv => ?_, h.origin, h.adjoins, h.len⟩
  obtain ⟨vn₀, hv₀, -⟩ := h.head.vnode
  obtain ⟨vn', hv', -, hi⟩ := hk.vnode _ _ hv₀
  rw [hv'] at hv
  cases hv
  rw [hi]
  exact h.number vn₀ hv₀

theorem grown {u : World} {init : List Continuation} {t : Continuation} {c : ClientIno}
    (h : FileChain u d (init ++ [t])) (hc : CanFollow u d (init ++ [t]) t c) :
    FileChain (growStage u t c 4 4) d (init ++ [relinked t c, appended t c]) := by
  have hto := h.elem t (by simp)
  obtain ⟨-, -, hnext⟩ := h.last_eq (t := t) (by simp)
  obtain ⟨hstart, -, -⟩ := h.last_eq (t := t) (by simp)
  refine ⟨h.toChain.grown hc, h.number, fun x hx => ?_, ?_, fun x hx => ?_⟩
  · cases init with
    | nil =>
      cases hx
      exact h.origin t (by simp)
    | cons y init =>
      cases hx
      exact h.origin x (by simp)
  · refine isChain_grown h.adjoins (fun a b hab => ⟨hab.start, hab.prev, hab.chunk⟩) ⟨?_, rfl, ?_⟩
    · show (nextCd t).start = t.cd.start + segLen
      rw [hnext, hstart]
      simp only [List.length_append, List.length_singleton, Nat.add_sub_cancel]
      rw [Nat.mul_succ]
    · show c.chunk = t.inode.chunk + 1
      rw [hc.chunk, hto.chunk]
  · simp only [List.mem_append, List.mem_cons, List.not_mem_nil, or_false] at hx
    rcases hx with hx | rfl | rfl
    · exact h.len x (by simp [hx])
    · exact h.len t (by simp)
    · rfl

theorem stored_outside {c : ClientIno} (h : FileChain w d cs) (hc : c ∉ cs.map (·.inode)) (cd : ContData) (j : Nat) :
    FileChain (w.stored c cd j) d cs :=
  ⟨⟨h.toLinked.stored_outside hc cd j, h.live⟩, h.number, h.origin, h.adjoins, h.len⟩

theorem openPath {u : World} {path : List Char} {mode : Nat} {c : ClientIno} (h : FileChain w d cs)
    (ho : w.openPath path mode = .ok (c, u)) : FileChain u d cs := by
  refine ⟨h.toChain.openPath ho, fun vn hv => h.number vn ?_, h.origin, h.adjoins, h.len⟩
  rwa [openPath_vnode ho] at hv

end FileChain

end FileChain

/-! ### What growing relies on -/

section Sound
variable {w w' : World} {c : ClientIno}

/-- The client file systems stay sound when an inode changes, and whatever happens in memory. --/
theorem Sound.frame (h : Sound w) (pool : w'.pool = w.pool)
    (ialloc : (∀ k, w.env.ialloc k < 2 ^ 28) → ∀ k, w'.env.ialloc k < 2 ^ 28)
    (dir : w'.disk.dir = w.disk.dir) (path : w'.disk.path = w.disk.path)
    (inode : ∀ x, (∃ i, w.disk.inode x = some i) → ∃ i, w'.disk.inode x = some i) : Sound w' where
  pool := pool ▸ h.pool
  ialloc := ialloc h.ialloc
  dir k f n hn := by
    rw [dir] at hn
    rw [pool]
    exact h.dir k f n hn
  file k f i x hx := by
    rw [path] at hx
    rw [pool]
    obtain ⟨hk, hp, hlt, hi⟩ := h.file k f i x hx
    exact ⟨hk, hp, hlt, inode x hi⟩

theorem Sound.kept (h : Sound w) (hk : Kept w w') : Sound w' :=
  h.frame hk.pool hk.ialloc hk.dir hk.path fun x ⟨i, hi⟩ =>
    have ⟨i', hi', _⟩ := hk.inode x i hi
    ⟨i', hi'⟩

theorem Sound.modify (h : Sound w) (c : ClientIno) (f : ClientInode → ClientInode) :
    Sound (w.setDisk (w.disk.modify c f)) := by
  refine h.frame rfl id rfl rfl fun x hx => ?_
  obtain ⟨i, hi⟩ := hx
  by_cases hxc : x = c
  · exact ⟨f i, by simp [World.setDisk, Disk.modify, hxc, hxc ▸ hi]⟩
  · exact ⟨i, by simp [World.setDisk, Disk.modify, hxc, hi]⟩

/-- A new continuation file leaves the client file systems sound. --/
theorem Sound.openPath (h : Sound w) {k f n : Nat} {mode : Nat} (ho : w.openPath (contPath k f n) mode = .ok (c, w')) :
    Sound w' := by
  rcases openPath_cases ho with ⟨-, rfl⟩ | ⟨hnone, hdir, hc, hfree, rfl⟩
  · exact h.kept (readIn_warm c).kept
  · rw [dirname_contPath] at hdir
    obtain ⟨hk, hp⟩ := h.dir k f _ hdir
    refine ⟨h.pool, h.ialloc, h.dir, fun k' f' i x hx => ?_⟩
    by_cases heq : contPath k' f' i = contPath k f n
    · obtain ⟨rfl, rfl, rfl⟩ := contPath_inj heq
      simp only [World.withFile, Disk.setPath, ↓reduceIte, Option.some.injEq] at hx
      subst hx
      exact ⟨hk, hp, hc ▸ h.ialloc _, ⟨_, by simp [World.withFile, Disk.setPath, Disk.insert]; rfl⟩⟩
    · simp only [World.withFile, Disk.setPath, heq, ↓reduceIte] at hx
      obtain ⟨hk', hp', hlt, ⟨y, hy⟩⟩ := h.file k' f' i x hx
      refine ⟨hk', hp', hlt, ?_⟩
      by_cases hxc : x = c
      · exact ⟨_, by simp [World.withFile, Disk.setPath, Disk.insert, hxc]; rfl⟩
      · exact ⟨y, by simp [World.withFile, Disk.setPath, Disk.insert, hxc, hy]⟩

theorem Sound.growStage (h : Sound w) (t : Continuation) (c : ClientIno) (j k : Nat) : Sound (growStage w t c j k) :=
  (h.modify c _).modify t.inode _

end Sound

/-- No continuation file is named after `x`. --/
def Unnamed (w : World) (x : ClientIno) : Prop := w.disk.path (contPath (x.chunk + 1) x.chunk x.ino) = none

/-- A file that can be worked on: every call works, no stale file is in the way of a new segment, neither behind
    the tail nor behind an inode that may become one, and the chunks behind the file's own have their directory
    and a free inode. --/
structure Ready (w : World) (d : Dentry) (cs : List Continuation) : Prop extends FileChain w d cs where
  sound : Sound w
  calm : Calm w
  fuel : 16 < w.env.fuel
  tail : ∀ t ∈ cs.getLast?, Unnamed w t.inode
  free : ∀ x, w.disk.inode x = none → Unnamed w x
  supply : ∀ k, d.client.chunk + cs.length ≤ k → k ∈ w.pool →
    w.disk.dir (contDir k (k - 1)) = some k ∧ w.disk.inode ⟨k, w.env.ialloc k⟩ = none

namespace Ready
variable {w w' u : World} {d : Dentry} {cs init : List Continuation} {t : Continuation} {c : ClientIno}

theorem length_lt (h : Ready w d cs) : cs.length + 1 < w.env.fuel := by
  have h₁ := h.length_le
  have h₂ := h.chunk_pos
  have h₃ := h.fuel
  omega

theorem vnode (h : Ready w d cs) : ∃ vn, w.vnode d.inode = some vn := by
  obtain ⟨vn, hv, -⟩ := h.head.vnode
  exact ⟨vn, hv⟩

theorem warm (h : Ready w d cs) (hw : Warm w w') : Ready w' d cs where
  toFileChain := h.toFileChain.kept hw.kept
  sound := h.sound.kept hw.kept
  calm := h.calm.warm hw
  fuel := by rw [hw.fuel]; exact h.fuel
  tail t ht := by
    unfold Unnamed
    rw [hw.disk]
    exact h.tail t ht
  free x hx := by
    unfold Unnamed
    rw [hw.disk] at hx ⊢
    exact h.free x hx
  supply k hk hp := by
    have hal : w'.env.ialloc = w.env.ialloc := by rw [hw.env]
    rw [hw.disk, hal]
    exact h.supply k hk (by rwa [hw.pool] at hp)

theorem wrote (h : Ready w d cs) (x : ClientIno) (pos : Nat) (stored : List UInt8) :
    Ready (w.wrote x pos stored) d cs where
  toFileChain := h.toFileChain.kept (.wrote w x pos stored)
  sound := h.sound.kept (.wrote w x pos stored)
  calm := h.calm
  fuel := h.fuel
  tail := h.tail
  free y hy := h.free y (Disk.inode_modify_eq_none.mp hy)
  supply k hk hp := ⟨(h.supply k hk hp).1, Disk.inode_modify_eq_none.mpr (h.supply k hk hp).2⟩

theorem copiedUp (h : Ready w d cs) {vn : Vnode} (hv : w.vnode d.inode = some vn) (i : ClientInode) :
    Ready (w.copiedUp d vn i cs) d cs :=
  have hk : Kept w (w.copiedUp d vn i cs) := .copiedUp hv i
  ⟨h.toFileChain.kept hk, h.sound.kept hk, h.calm, h.fuel, h.tail, h.free, h.supply⟩

theorem nextPath_free (h : Ready w d cs) (ht : cs.getLast? = some t) : w.disk.path (nextPath t) = none := by
  have := h.tail t ht
  unfold nextPath
  rw [(h.last_onDisk ht).chunk]
  exact this

/-- The file opened behind the tail is new and empty. --/
theorem opens_new (h : Ready w d cs) (ht : cs.getLast? = some t)
    (ho : w.openPath (nextPath t) contMode = .ok (c, u)) :
    CanFollow u d cs t c ∧ w.disk.inode c = none ∧ u = w.withFile (nextPath t) c contMode := by
  have hnone := h.nextPath_free ht
  refine ⟨h.sound.canFollow h.toLinked ht (fun hp => by rw [hnone] at hp; cases hp) h.number ho, ?_⟩
  rcases openPath_cases ho with ⟨hp, -⟩ | ⟨-, -, -, hfree, hu⟩
  · rw [hnone] at hp
    cases hp
  · exact ⟨hfree, hu⟩

theorem grown (h : Ready w d (init ++ [t])) (ho : w.openPath (nextPath t) contMode = .ok (c, u)) :
    Ready (growStage u t c 4 4) d (init ++ [relinked t c, appended t c]) := by
  obtain ⟨hcan, hfree, hu⟩ := h.opens_new (by simp) ho
  have hto := h.elem t (by simp)
  obtain ⟨it, hit, -⟩ := hto.allocated
  have henv : u.env = w.env := (openPath_env ho).1
  -- The one new name is the one behind the old tail.
  have hpath : ∀ x : ClientIno, x ≠ t.inode → (Unnamed (growStage u t c 4 4) x ↔ Unnamed w x) := fun x hx => by
    unfold Unnamed
    have hne : contPath (x.chunk + 1) x.chunk x.ino ≠ nextPath t := fun he => by
      obtain ⟨-, h₂, h₃⟩ := contPath_inj he
      rw [hto.chunk] at h₂
      exact hx (by cases x; cases t.inode; simp_all)
    show (u.disk.path _ = none ↔ _)
    rw [hu]
    simp [World.withFile, Disk.setPath, hne, Disk.insert]
  refine ⟨(h.toFileChain.openPath ho).grown hcan, (h.sound.openPath ho).growStage t c 4 4, ?_, ?_, fun x hx => ?_,
    fun x hx => ?_, fun k hk hp => ?_⟩
  · show u.env.script = []
    rw [henv]
    exact h.calm
  · show 16 < u.env.fuel
    rw [henv]
    exact h.fuel
  · rw [List.getLast?_append_of_ne_nil _ (by simp)] at hx
    simp only [List.getLast?_cons_cons, List.getLast?_singleton, Option.mem_def, Option.some.injEq] at hx
    subst hx
    exact (hpath c (fun he => hcan.outside (by simp [he]))).mpr (h.free c hfree)
  · have hx' : w.disk.inode x = none := by
      have := Disk.inode_modify_eq_none.mp (Disk.inode_modify_eq_none.mp hx)
      cases hw : w.disk.inode x with
      | none => rfl
      | some y =>
        have hy := openPath_inode ho hw
        rw [this] at hy
        cases hy
    refine (hpath x fun he => ?_).mpr (h.free x hx')
    rw [he, hit] at hx'
    cases hx'
  · -- The chunks further behind are not touched.
    simp only [List.length_append, List.length_cons, List.length_nil] at hk
    have hkw : k ∈ w.pool := by
      have : k ∈ u.pool := hp
      rwa [(openPath_env ho).2] at this
    obtain ⟨hdir, hnone⟩ := h.supply k (by simp only [List.length_append, List.length_singleton]; omega) hkw
    have hc : c.chunk = d.client.chunk + (init.length + 1) := by
      rw [hcan.chunk, hto.chunk, (h.last_eq (t := t) (by simp)).2.1]
      simp
      omega
    have hne : (⟨k, w.env.ialloc k⟩ : ClientIno) ≠ c := fun he => by
      have : k = c.chunk := congrArg ClientIno.chunk he
      omega
    refine ⟨by subst hu; exact hdir, Disk.inode_modify_eq_none.mpr (Disk.inode_modify_eq_none.mpr ?_)⟩
    show u.disk.inode ⟨k, u.env.ialloc k⟩ = none
    rw [henv, hu]
    simp only [World.withFile, Disk.setPath, Disk.insert, hne, ↓reduceIte]
    exact hnone

/-- The next segment can be made where the pool has its chunk. --/
theorem openPath_ok (h : Ready w d cs) (ht : cs.getLast? = some t) (hp : d.client.chunk + cs.length ∈ w.pool) :
    ∃ c u, w.openPath (nextPath t) contMode = .ok (c, u) := by
  have hne := List.length_pos_of_ne_nil h.ne_nil
  have hk : t.chunkId = d.client.chunk + (cs.length - 1) := by
    rw [(h.last_onDisk ht).chunk, (h.last_eq ht).2.1]
  obtain ⟨hdir, hnone⟩ := h.supply _ (Nat.le_refl _) hp
  have hd : w.disk.dir (dirname (nextPath t)) = some (d.client.chunk + cs.length) := by
    unfold nextPath
    rw [dirname_contPath, hk, show d.client.chunk + (cs.length - 1) + 1 = d.client.chunk + cs.length by omega,
      show d.client.chunk + (cs.length - 1) = d.client.chunk + cs.length - 1 by omega]
    exact hdir
  let c : ClientIno := ⟨d.client.chunk + cs.length, w.env.ialloc (d.client.chunk + cs.length)⟩
  refine ⟨c, w.withFile (nextPath t) c contMode, ?_⟩
  unfold World.openPath
  rw [h.nextPath_free ht, hd]
  simp [hnone, c]

end Ready

end Chunkfs
