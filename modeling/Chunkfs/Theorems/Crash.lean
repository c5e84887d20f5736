import Chunkfs.Theorems.NewFile

/-! A crash while a file grows. The durable updates of `chunkfs_create_continuation` are the creation of the
    file, the four attributes of the new inode and the four of the old tail; the machine can stop before any
    of them. What is then found on disk is the old chain, or the old chain with the complete new element. -/

namespace Chunkfs
open Exec

/-- A well-formed chain: forward and back pointers are mutual, the tail has no `next`, each range begins where
    the one before it ends. --/
structure WellFormed (w : World) (d : Dentry) (cs : List Continuation) : Prop where
  live : w.icache d.client = .live
  vnode : ∃ vn, w.vnode d.inode = some vn ∧ vn.client = some d.client ∧ vn.ino = d.client.uino
  first : ∃ c rest, cs = c :: rest ∧ c.inode = d.client
  elem : ∀ c ∈ cs, OnDisk w c
  links : cs.IsChain (Links w)
  back : cs.IsChain fun a b => b.cd.prev = a.uino
  ranges : cs.IsChain fun a b => b.cd.start = (a.cd.start + a.cd.len) % 2 ^ 64
  last : ∀ c ∈ cs.getLast?, c.cd.next = 0
  readable : ∀ c ∈ cs, w.Readable c.inode

/-- Two stretches of chains that begin at the same inode are equally long: the data of an inode decides what
    follows it. --/
theorem length_eq_of_same_inode {w : World} : ∀ {a b : Continuation} {r s : List Continuation},
    (∀ c ∈ a :: r, OnDisk w c) → (∀ c ∈ b :: s, OnDisk w c) → (a :: r).IsChain (Links w) → (b :: s).IsChain (Links w) →
      (∀ c ∈ (a :: r).getLast?, c.cd.next = 0) → (∀ c ∈ (b :: s).getLast?, c.cd.next = 0) → a.inode = b.inode →
        r.length = s.length
  | a, b, r, s, ha, hb, la, lb, za, zb, he => by
    have hcd : a.cd = b.cd := by
      have h₁ := (ha a (by simp)).data
      rw [he, (hb b (by simp)).data] at h₁
      exact (Option.some.inj h₁).symm
    have stop : ∀ {x y : Continuation} {l : List Continuation}, (∀ c ∈ x :: y :: l, OnDisk w c) →
        (x :: y :: l).IsChain (Links w) → x.cd.next ≠ 0 := fun hx l => by
      have hy := hx _ (List.mem_cons_of_mem _ List.mem_cons_self)
      rw [(List.isChain_cons_cons.mp l).1.next, hy.uino]
      exact hy.range.uino_ne_zero
    match r, s with
    | [], [] => rfl
    | [], y :: s => exact absurd (hcd ▸ za a (by simp)) (stop hb lb)
    | x :: r, [] => exact absurd (hcd.symm ▸ zb b (by simp)) (stop ha la)
    | x :: r, y :: s =>
      obtain ⟨lax, lr⟩ := List.isChain_cons_cons.mp la
      obtain ⟨lby, ls⟩ := List.isChain_cons_cons.mp lb
      have hx := ha x (by simp)
      have hy := hb y (by simp)
      have hxy : x.inode = y.inode := hx.range.uino_inj hy.range (by
        rw [← hx.uino, ← hy.uino, ← lax.next, ← lby.next, hcd])
      have := length_eq_of_same_inode (fun c hc => ha c (List.mem_cons_of_mem _ hc))
        (fun c hc => hb c (List.mem_cons_of_mem _ hc)) lr ls (fun c hc => za c (by rw [List.getLast?_cons_cons]; exact hc))
        (fun c hc => zb c (by rw [List.getLast?_cons_cons]; exact hc)) hxy
      simp [this]

theorem nodup_of_links {w : World} : ∀ {cs : List Continuation}, (∀ c ∈ cs, OnDisk w c) → cs.IsChain (Links w) →
    (∀ c ∈ cs.getLast?, c.cd.next = 0) → (cs.map (·.inode)).Nodup
  | [], _, _, _ => List.nodup_nil
  | a :: rest, helem, hlinks, hlast => by
    have hrest : ∀ c ∈ rest.getLast?, c.cd.next = 0 := fun c hc => hlast c (by
      rw [List.getLast?_cons]
      simp [Option.mem_def.mp hc])
    refine List.nodup_cons.mpr ⟨fun hm => ?_, nodup_of_links (fun c hc => helem c (List.mem_cons_of_mem _ hc))
      (List.IsChain.tail hlinks) hrest⟩
    -- A second occurrence would have as many elements after it as the first.
    obtain ⟨b, hb, he⟩ := List.mem_map.mp hm
    obtain ⟨l, r, rfl⟩ := List.append_of_mem hb
    have hsuffix : b :: r <:+ a :: (l ++ b :: r) := ⟨a :: l, by simp⟩
    have := length_eq_of_same_inode helem (fun c hc => helem c (hsuffix.subset hc)) hlinks (hlinks.suffix hsuffix) hlast
      (fun c hc => hlast c (by rw [← List.cons_append, List.getLast?_append_of_ne_nil _ (by simp)]; exact hc)) he.symm
    simp at this
    omega

section WellFormed
variable {w : World} {d : Dentry} {cs : List Continuation}

theorem WellFormed.walkable (h : WellFormed w d cs) : Walkable w d cs := by
  have hnodup := nodup_of_links h.elem h.links h.last
  obtain ⟨vn, hv, hc, hi⟩ := h.vnode
  obtain ⟨c, rest, rfl, hd⟩ := h.first
  have hr := (h.elem c (by simp)).range
  refine ⟨⟨⟨h.live, vn, hv, hc, ?_⟩, h.first, h.elem, h.links, h.last, fun vn' hv' x hx he => ?_, hnodup⟩, h.readable⟩
  · rw [hi, ← hd, hr.chunkId_uino]
  · rw [hv] at hv'
    cases hv'
    have hx' := h.elem x (List.mem_cons_of_mem _ hx)
    rw [hi, hx'.uino, ← hd] at he
    have := hx'.range.uino_inj hr he
    exact (List.nodup_cons.mp hnodup).1 (List.mem_map.mpr ⟨x, hx, this⟩)

/-- A new file has a well-formed chain. --/
theorem NewFile.wellFormed (h : NewFile w d) : WellFormed w d [headOf d] := by
  have hc := h.fileChain
  obtain ⟨vn, hv, hcl, hn, -⟩ := h.vnode
  exact ⟨h.live, ⟨vn, hv, hcl, hn⟩, hc.first, hc.elem, hc.links, .singleton _, .singleton _, hc.last,
    fun x hx => Or.inl (hc.live x hx)⟩

end WellFormed

/-- The machine has come up again on the same disk: nothing is in memory but the head of the file, which has
    been looked up, and every call works. --/
def World.reboot (w : World) (d : Dentry) : World :=
  { w with
    icache := fun c => if c = d.client then .live else .absent
    vnode := fun v => if v = d.inode then some ⟨d.client.uino, zeroAttrs, 0, some d.client⟩ else none
    refs := ⟨fun _ => 0, fun _ => 0, 0⟩
    env := { w.env with script := [] } }

section Reboot
variable {w : World} {d : Dentry} {cs : List Continuation}

/-- A chain on disk outlives the machine. --/
theorem Linked.reboot (h : Linked w d cs) (hino : ∀ vn, w.vnode d.inode = some vn → vn.ino = d.client.uino) :
    Walkable (w.reboot d) d cs := by
  refine ⟨h.frame (fun c hc => (h.elem c hc).data) (fun p _ => rfl) rfl (by simp [World.reboot])
    fun vn hv => ⟨_, by simp [World.reboot]; rfl, ?_, (hino vn hv).symm⟩, fun c _ => ?_⟩
  · obtain ⟨vn', hv', hc, -⟩ := h.head.vnode
    rw [hv] at hv'
    cases hv'
    exact hc.symm
  · by_cases hcd : c.inode = d.client
    · exact Or.inl (by simp [World.reboot, hcd])
    · exact Or.inr (by simp [World.reboot, hcd])

theorem Walkable.walk_reboot (h : Walkable (w.reboot d) d cs) {fuel : Nat} (hf : cs.length < fuel) :
    ∃ w', walkConts fuel d none (w.reboot d) = .ok (.ok cs) w' := by
  have hc : Calm (w.reboot d) := rfl
  obtain ⟨w', hr, -⟩ := (walkConts_reads (h.follows hc.honest) hf _ (Warm.refl _)).calm hc
  exact ⟨w', hr⟩

end Reboot

/-- `w'` holds the chain `init ++ [t]` of `w`, or that chain grown by one element. --/
def Survives (w : World) (d : Dentry) (init : List Continuation) (t : Continuation) (w' : World) : Prop :=
  w'.vnode = w.vnode ∧ (Linked w' d (init ++ [t]) ∨ ∃ c, Linked w' d (init ++ [relinked t c, appended t c]))

section Crash
variable {w : World} {d : Dentry} {cs init : List Continuation} {t : Continuation} {file : File}

/-- What `chunkfs_create_continuation` leaves, whether it returns or is cut short, is the old chain or the old
    chain grown by one element. --/
theorem createContinuation_leaves (h : Walkable w d (init ++ [t])) (hs : Sound w) (hh : Honest w)
    (hf : (init ++ [t]).length < w.env.fuel)
    (hnew : ∀ c, w.disk.path (nextPath t) = some c → c ∉ (init ++ [t]).map (·.inode) ∧ w.Readable c)
    (hino : ∀ vn, w.vnode d.inode = some vn → vn.ino = d.client.uino) (hfile : file.dentry = d) (ppos : Int) :
    Survives w d init t (final (createContinuation file ppos w)) := by
  have ht : (init ++ [t]).getLast? = some t := by simp
  cases ho : w.openPath (nextPath t) contMode with
  | error e =>
    exact (createContinuation_fails h hh hf ht ho hfile ppos).final (P := Survives w d init t)
      (fun _ w' hw => ⟨hw.2.vnode, Or.inl (h.toLinked.warm hw.2)⟩)
      fun _ w' hw => ⟨hw.2.2.vnode, Or.inl (h.toLinked.warm hw.2.2)⟩
  | ok cu =>
    obtain ⟨c, u⟩ := cu
    have hc := hs.canFollow h.toLinked ht (hnew c) hino ho
    have hu : Linked u d (init ++ [t]) := h.toLinked.openPath ho
    obtain ⟨i, hi⟩ := hc.allocated
    have hvn : u.vnode = w.vnode := openPath_vnode ho
    have hgrow := createContinuation_grows h hh hf ht ho hc.live hi (fun he => hc.outside (by simp [he])) hc.chunk
      ((openPath_env ho).2 ▸ hc.pool) hfile ppos
    refine hgrow.final (P := Survives w d init t)
      (fun _ w' hw => ⟨hw.2.vnode.trans hvn, Or.inr ⟨c, (hu.grown hc (by omega)).warm hw.2⟩⟩) ?_
    rintro e w' ⟨-, -, hw | ⟨j, -, hw⟩ | ⟨k, -, hw⟩⟩
    · exact ⟨hw.vnode, Or.inl (h.toLinked.warm hw)⟩
    · refine ⟨hw.vnode.trans hvn, Or.inl (Linked.warm ?_ hw)⟩
      rw [growStage_zero]
      exact hu.stored_outside hc.outside _ j
    · rcases Nat.eq_zero_or_pos k with rfl | hk
      · refine ⟨hw.vnode.trans hvn, Or.inl (Linked.warm ?_ hw)⟩
        rw [growStage_zero]
        exact hu.stored_outside hc.outside _ 4
      · exact ⟨hw.vnode.trans hvn, Or.inr ⟨c, (hu.grown hc hk).warm hw⟩⟩

/-- Wherever the machine stops while a file grows, the walk over what is on disk then gives the old chain, or the
    old chain with a new last element whose data is complete. --/
theorem growing_survives_crash (h : WellFormed w d cs) (hs : Sound w) (hh : Honest w) (hf : cs.length < w.env.fuel)
    (ht : cs.getLast? = some t) (hnew : ∀ c, w.disk.path (nextPath t) = some c → c ∉ cs.map (·.inode) ∧ w.Readable c)
    (hfile : file.dentry = d) (ppos : Int) :
    let x := (final (createContinuation file ppos w)).reboot d
    ∃ cs', (∀ fuel, cs'.length < fuel → ∃ x', walkConts fuel d none x = .ok (.ok cs') x') ∧
      (cs' = cs ∨ ∃ n : Continuation, cs' = cs.dropLast ++ [{ t with cd := { t.cd with next := n.uino } }, n] ∧
        n.cd = { next := 0, prev := t.uino, start := (t.cd.start + t.cd.len) % 2 ^ 64, len := 40960 }) ∧
      WellFormed x d cs' := by
  intro x
  have hl := h.walkable
  obtain ⟨init, rfl⟩ : ∃ init, cs = init ++ [t] := ⟨_, (List.dropLast_append_getLast? t ht).symm⟩
  have hino : ∀ vn, w.vnode d.inode = some vn → vn.ino = d.client.uino := fun vn hv => by
    obtain ⟨vn', hv', -, hi⟩ := h.vnode
    rw [hv] at hv'
    cases hv'
    exact hi
  have wf : ∀ {l : List Continuation}, Walkable x d l → (l.IsChain fun a b => b.cd.prev = a.uino) →
      (l.IsChain fun a b => b.cd.start = (a.cd.start + a.cd.len) % 2 ^ 64) → WellFormed x d l := fun hx hb hr =>
    ⟨hx.head.live, ⟨_, by simp [x, World.reboot]; rfl, rfl, rfl⟩, hx.first, hx.elem, hx.links, hb, hr, hx.last,
      hx.readable⟩
  obtain ⟨hv, hleft⟩ := createContinuation_leaves hl hs hh hf hnew hino hfile ppos
  rcases hleft with hleft | ⟨c, hleft⟩
  · have hx : Walkable x d (init ++ [t]) := hleft.reboot (by rw [hv]; exact hino)
    exact ⟨_, fun fuel hfuel => hx.walk_reboot hfuel, Or.inl rfl, wf hx h.back h.ranges⟩
  · have hx : Walkable x d (init ++ [relinked t c, appended t c]) := hleft.reboot (by rw [hv]; exact hino)
    refine ⟨_, fun fuel hfuel => hx.walk_reboot hfuel, Or.inr ⟨appended t c, by simp; rfl, rfl⟩, wf hx ?_ ?_⟩
    · exact isChain_grown (c := c) h.back (fun _ _ e => e) rfl
    · exact isChain_grown (c := c) h.ranges (fun _ _ e => e) rfl

end Crash

/-- The machine stops while the attributes of the new inode are being stored. --/
theorem growing_survives_crash_after_twenty_calls :
    let w := oneFile [1, 2] { quietEnv with script := List.replicate 20 .works ++ [.halts] }
    let x := (final (createContinuation firstFile 40960 w)).reboot firstDentry
    ∃ cs', (∀ fuel, cs'.length < fuel → ∃ x', walkConts fuel firstDentry none x = .ok (.ok cs') x') ∧
      (cs' = [headOf firstDentry] ∨ ∃ n : Continuation,
        cs' = [{ headOf firstDentry with cd := { initCd with next := n.uino } }, n] ∧
        n.cd = { next := 0, prev := firstIno.uino, start := 40960, len := 40960 }) ∧
      WellFormed x firstDentry cs' := by
  intro w x
  have h : NewFile w firstDentry := oneFile_newFile (by decide) (by decide) fun _ => by
    show 20 < 30 ∧ 30 < 2 ^ 28
    decide
  have hfree : w.disk.path (nextPath (headOf firstDentry)) = none := h.unnamed firstIno (Or.inl rfl)
  exact growing_survives_crash (t := headOf firstDentry) h.wellFormed h.sound
    (fun e he => by simp [w, oneFile, prepared] at he) (by decide) rfl (fun c hc => by rw [hfree] at hc; cases hc) rfl 40960

end Chunkfs
