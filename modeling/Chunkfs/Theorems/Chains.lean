import Chunkfs.Theorems.Grow

/-! Growing keeps a chain a chain. Opening the new file and storing its data leave the old chain as it is;
    from the moment the old tail names the new inode, the chain is the old one with the new continuation at
    its end. -/

namespace Chunkfs
open Exec

/-- The old tail once it names the new continuation. --/
def relinked (t : Continuation) (c : ClientIno) : Continuation := { t with cd := tailCd t c }

/-- The client inode `c` can become the continuation after `t` in the chain `cs`: it is in memory under the
    right name, in the next chunk of the pool, and it is not in the chain. --/
structure CanFollow (u : World) (d : Dentry) (cs : List Continuation) (t : Continuation) (c : ClientIno) : Prop where
  range : c.InRange
  chunk : c.chunk = t.chunkId + 1
  pool : c.chunk ∈ u.pool
  path : u.disk.path (nextPath t) = some c
  live : u.icache c = .live
  allocated : ∃ i, u.disk.inode c = some i
  outside : c ∉ cs.map (·.inode)
  apart : ∀ vn, u.vnode d.inode = some vn → c.uino ≠ vn.ino

theorem CanFollow.warm {u u' : World} {d : Dentry} {cs : List Continuation} {t : Continuation} {c : ClientIno}
    (h : CanFollow u d cs t c) (hw : Warm u u') : CanFollow u' d cs t c where
  range := h.range
  chunk := h.chunk
  pool := hw.pool ▸ h.pool
  path := hw.disk ▸ h.path
  live := hw.live h.live
  allocated := hw.disk ▸ h.allocated
  outside := h.outside
  apart := hw.vnode ▸ h.apart

/-- What chunkfs relies on in the client file systems: the pool's ids fit a unified number, the directories of
    continuations of chunk `k` lie in chunk `k`, and so do the files in them. --/
structure Sound (w : World) : Prop where
  pool : ∀ k ∈ w.pool, 1 ≤ k ∧ k ≤ 15
  ialloc : ∀ k, w.env.ialloc k < 2 ^ 28
  dir : ∀ k f n, w.disk.dir (contDir k f) = some n → n = k ∧ k ∈ w.pool
  file : ∀ k f i c, w.disk.path (contPath k f i) = some c →
    c.chunk = k ∧ k ∈ w.pool ∧ c.ino < 2 ^ 28 ∧ ∃ x, w.disk.inode c = some x

section Growth
variable {w u : World} {d : Dentry} {cs init : List Continuation} {t : Continuation} {c : ClientIno}

/-- The file opened for a continuation can follow the tail, if it is new, or can be read in and is not in the chain
    already. --/
theorem Sound.canFollow (hs : Sound w) (h : Linked w d cs) (ht : cs.getLast? = some t)
    (hnew : w.disk.path (nextPath t) = some c → c ∉ cs.map (·.inode) ∧ w.Readable c)
    (hino : ∀ vn, w.vnode d.inode = some vn → vn.ino = d.client.uino)
    (ho : w.openPath (nextPath t) contMode = .ok (c, u)) : CanFollow u d cs t c := by
  have hto := h.last_onDisk ht
  have facts : c.chunk = t.chunkId + 1 ∧ c.chunk ∈ w.pool ∧ c.ino < 2 ^ 28 ∧ u.disk.path (nextPath t) = some c ∧
      u.icache c = .live ∧ (∃ i, u.disk.inode c = some i) ∧ c ∉ cs.map (·.inode) := by
    rcases openPath_cases ho with ⟨hp, rfl⟩ | ⟨-, hdir, hc, hfree, rfl⟩
    · obtain ⟨hk, hpool, hlt, hi⟩ := hs.file _ _ _ _ hp
      obtain ⟨hout, hr⟩ := hnew hp
      have hw := readIn_warm (w := w) c
      exact ⟨hk, hk ▸ hpool, hlt, by rw [hw.disk]; exact hp, readIn_live hr, by rw [hw.disk]; exact hi, hout⟩
    · unfold nextPath at hdir
      rw [dirname_contPath] at hdir
      obtain ⟨hk, hpool⟩ := hs.dir _ _ _ hdir
      refine ⟨hk, hk ▸ hpool, hc ▸ hs.ialloc _, by simp [World.withFile, Disk.setPath], by simp [World.withFile],
        ⟨_, by simp [World.withFile, Disk.setPath, Disk.insert]; rfl⟩, fun hm => ?_⟩
      -- The elements of the chain are allocated, the new inode was not.
      obtain ⟨x, hx, rfl⟩ := List.mem_map.mp hm
      obtain ⟨i, hi, -⟩ := (h.elem x hx).allocated
      rw [hi] at hfree
      cases hfree
  obtain ⟨hk, hpool, hlt, hpath, hlive, halloc, hout⟩ := facts
  have hr : c.InRange := ⟨(hs.pool _ hpool).1, (hs.pool _ hpool).2, hlt⟩
  refine ⟨hr, hk, (openPath_env ho).2 ▸ hpool, hpath, hlive, halloc, hout, fun vn hv he => ?_⟩
  have hv' : w.vnode d.inode = some vn := by rwa [openPath_vnode ho] at hv
  obtain ⟨x, rest, rfl, hx⟩ := h.first
  have hxr := (h.elem x (by simp)).range
  rw [hino vn hv', ← hx] at he
  exact hout (by simp [hr.uino_inj hxr he])

/-- Opening a file does not touch a chain. --/
theorem Linked.openPath (h : Linked w d cs) {path : List Char} {mode : Nat} (ho : w.openPath path mode = .ok (c, u)) :
    Linked u d cs := by
  rcases openPath_cases ho with ⟨-, rfl⟩ | ⟨hnone, -, -, -, rfl⟩
  · exact h.warm (readIn_warm c)
  · refine h.frame (fun x hx => ?_) (fun p hp => ?_) rfl (openPath_live ho h.head.live)
      fun vn hv => ⟨vn, hv, rfl, rfl⟩
    · obtain ⟨i, hi, hcd⟩ := (h.elem x hx).allocated
      have := openPath_inode ho hi
      simp only [Disk.contData?, this, hcd]
    · have : p ≠ path := fun he => by
        rw [he, hnone] at hp
        cases hp
      simp [World.withFile, Disk.setPath, Disk.insert, this]

/-- Storing data at an inode outside a chain does not touch the chain. --/
theorem Linked.stored_outside (h : Linked u d cs) (hc : c ∉ cs.map (·.inode)) (cd : ContData) (j : Nat) :
    Linked (u.stored c cd j) d cs := by
  refine h.frame (fun x hx => ?_) (fun p _ => rfl) rfl h.head.live fun vn hv => ⟨vn, hv, rfl, rfl⟩
  have hne : x.inode ≠ c := fun he => hc (he ▸ List.mem_map_of_mem hx)
  show (u.disk.modify c _).contData? x.inode = some x.cd
  rw [Disk.contData?_modify_of_ne hne]
  exact (h.elem x hx).data

/-- From the first attribute of the old tail on, the chain has the new continuation at its end. --/
theorem Linked.grown (h : Linked u d (init ++ [t])) (hc : CanFollow u d (init ++ [t]) t c) {k : Nat} (hk : 1 ≤ k) :
    Linked (growStage u t c 4 k) d (init ++ [relinked t c, appended t c]) := by
  have hto : OnDisk u t := h.elem t (by simp)
  have hne : c ≠ t.inode := fun he => hc.outside (by simp [he])
  obtain ⟨i, hi⟩ := hc.allocated
  obtain ⟨it, hit, hitd⟩ := hto.allocated
  have htu : t.uino < 2 ^ 64 := by rw [hto.uino]; exact hto.range.uino_lt
  have hnodup := h.nodup
  rw [List.map_append, List.nodup_append] at hnodup
  have hinit : ∀ x ∈ init, x.inode ≠ t.inode := fun x hx =>
    hnodup.2.2 x.inode (List.mem_map_of_mem hx) t.inode (by simp)
  have hout : ∀ x ∈ init ++ [t], x.inode ≠ c := fun x hx he => hc.outside (he ▸ List.mem_map_of_mem hx)
  -- The data of the three kinds of elements.
  have data_init : ∀ x ∈ init, (growStage u t c 4 k).disk.contData? x.inode = some x.cd := fun x hx => by
    show ((u.disk.modify c _).modify t.inode _).contData? x.inode = some x.cd
    rw [Disk.contData?_modify_of_ne (hinit x hx), Disk.contData?_modify_of_ne (hout x (by simp [hx]))]
    exact (h.elem x (by simp [hx])).data
  have data_tail : (growStage u t c 4 k).disk.contData? t.inode = some (tailCd t c) := by
    show ((u.disk.modify c _).modify t.inode _).contData? t.inode = some (tailCd t c)
    rw [Disk.contData?_modify_same (by rw [Disk.inode_modify_of_ne hne.symm]; exact hit)]
    have hfits := (ClientInode.fits_of_contData? hitd).withNext hc.range.uino_lt
    have := ClientInode.contData?_setFirst_next (k := k) hitd hfits
    rwa [if_neg (by omega)] at this
  have data_new : (growStage u t c 4 k).disk.contData? c = some (nextCd t) := by
    have := contData?_growStage (k := k) hc.live hi hne htu
    rwa [contData?_of_live (show (growStage u t c 4 k).icache c = .live from hc.live)] at this
  have keep : ∀ {x : Continuation} {cd : ContData}, OnDisk u x →
      (growStage u t c 4 k).disk.contData? x.inode = some cd → OnDisk (growStage u t c 4 k) { x with cd := cd } :=
    fun hx hd => ⟨hx.range, hx.pool, hx.chunk, hx.uino, hd⟩
  have hlinks := List.isChain_append.mp h.links
  refine ⟨?_, ?_, ?_, ?_, ?_, ?_, ?_⟩
  · exact ⟨h.head.live, h.head.vnode⟩
  · obtain ⟨x, rest, he, hx⟩ := h.first
    cases init with
    | nil =>
      obtain ⟨rfl, -⟩ := List.cons.inj he
      exact ⟨_, _, rfl, hx⟩
    | cons y init =>
      obtain ⟨rfl, -⟩ := List.cons.inj he
      exact ⟨_, _, rfl, hx⟩
  · intro x hx
    simp only [List.mem_append, List.mem_cons, List.not_mem_nil, or_false] at hx
    rcases hx with hx | rfl | rfl
    · exact keep (h.elem x (by simp [hx])) (data_init x hx)
    · exact keep hto data_tail
    · exact ⟨hc.range, hc.pool, rfl, rfl, data_new⟩
  · -- The link into the old tail does not read its `next`; the new link is the tail's new `next`.
    refine List.isChain_append.mpr ⟨hlinks.1.imp fun a b l => ⟨l.next, l.path⟩, ?_, ?_⟩
    · refine List.isChain_pair.mpr ⟨?_, ?_⟩
      · exact rfl
      · show u.disk.path (contPath c.chunk t.inode.chunk t.inode.ino) = some c
        rw [hc.chunk, ← hto.chunk]
        exact hc.path
    · intro a ha b hb
      simp only [List.head?_cons, Option.mem_def, Option.some.injEq] at hb
      subst hb
      have l := hlinks.2.2 a ha t (by simp)
      exact ⟨l.next, l.path⟩
  · intro x hx
    rw [List.getLast?_append_of_ne_nil _ (by simp)] at hx
    simp only [List.getLast?_cons_cons, List.getLast?_singleton, Option.mem_def, Option.some.injEq] at hx
    subst hx
    rfl
  · intro vn hv x hx
    have hap := h.apart vn hv
    cases init with
    | nil =>
      simp only [List.nil_append, List.tail_cons, List.mem_cons, List.not_mem_nil, or_false] at hx
      subst hx
      exact hc.apart vn hv
    | cons y init =>
      simp only [List.cons_append, List.tail_cons, List.mem_append, List.mem_cons, List.not_mem_nil, or_false] at hx hap
      rcases hx with hx | rfl | rfl
      · exact hap x (Or.inl hx)
      · exact hap t (Or.inr rfl)
      · exact hc.apart vn hv
  · have : (init ++ [relinked t c, appended t c]).map (·.inode) = (init ++ [t]).map (·.inode) ++ [c] := by
      simp [relinked, appended, loaded]
    rw [this, List.nodup_append]
    refine ⟨h.nodup, by simp, fun x hx y hy => ?_⟩
    rw [List.mem_singleton.mp hy]
    exact fun he => hc.outside (he ▸ hx)

/-- A relation of neighbours that does not read `next` of either side carries over to the grown chain. --/
theorem isChain_grown {R : Continuation → Continuation → Prop} (h : (init ++ [t]).IsChain R)
    (hnext : ∀ a b, R a b → R a (relinked b c)) (hnew : R (relinked t c) (appended t c)) :
    (init ++ [relinked t c, appended t c]).IsChain R := by
  obtain ⟨hinit, -, hlast⟩ := List.isChain_append.mp h
  refine List.isChain_append.mpr ⟨hinit, List.isChain_pair.mpr hnew, fun a ha b hb => ?_⟩
  simp only [List.head?_cons, Option.mem_def, Option.some.injEq] at hb
  subst hb
  exact hnext a t (hlast a ha t (by simp))

end Growth

end Chunkfs
