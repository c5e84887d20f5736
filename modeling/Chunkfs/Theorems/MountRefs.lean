import Chunkfs.Mounting
import Chunkfs.Theorems.Mount

/-! What a mount that fails gives back. The functions that read the pool undo what they have done; `chunkfs_read_root` and
    `chunkfs_fill_super` do not. -/

namespace Chunkfs
namespace Mounting
open Exec
variable {s t : Attempt} {r : Refs} {m m' : List Bool} {ci : ChunkInfo} {c d : Chunk} {cs : List Chunk} {o next fuel : Nat}

/-! ### Counting references -/

theorem Refs.ext' {r r' : Refs} (hbh : ∀ b, r.bh b = r'.bh b) (hmnt : ∀ p, r.mnt p = r'.mnt p)
    (hdentry : ∀ p, r.dentry p = r'.dentry p) (hinode : r.inode = r'.inode) (hroot : r.root = r'.root)
    (hclient : r.client = r'.client) : r = r' := by
  cases r
  cases r'
  simp only [Refs.mk.injEq]
  exact ⟨funext hbh, funext hmnt, funext hdentry, hinode, hroot, hclient⟩

/-- The references of a chunk: one on its buffer and one on its mount. --/
def Refs.hold (r : Refs) (c : Chunk) : Refs := (r.addBh c.bh 1).addMnt c.mnt 1

def Refs.held (r : Refs) (cs : List Chunk) : Refs := cs.foldl Refs.hold r

theorem Refs.hold_comm (r : Refs) (c d : Chunk) : (r.hold c).hold d = (r.hold d).hold c := by
  apply Refs.ext'
  · intro b
    simp only [hold, addBh, addMnt]
    omega
  · intro p
    simp only [hold, addBh, addMnt]
    omega
  · exact fun _ => rfl
  · rfl
  · rfl
  · rfl

theorem Refs.held_cons (r : Refs) (c : Chunk) (cs : List Chunk) : r.held (c :: cs) = (r.held cs).hold c := by
  unfold held
  rw [List.foldl_cons]
  induction cs generalizing r with
  | nil => rfl
  | cons d cs ih => rw [List.foldl_cons, List.foldl_cons, hold_comm, ih]

theorem Refs.held_concat (r : Refs) (c : Chunk) (cs : List Chunk) : r.held (cs ++ [c]) = (r.held cs).hold c :=
  List.foldl_append ..

/-- What has been taken and dropped again. --/
theorem Refs.addBh_cancel (r : Refs) (blk : Nat) : (r.addBh blk 1).addBh blk (-1) = r := by
  apply Refs.ext'
  · intro b
    simp only [addBh]
    split <;> omega
  · exact fun _ => rfl
  · exact fun _ => rfl
  · rfl
  · rfl
  · rfl

theorem Refs.hold_cancel (r : Refs) (c : Chunk) : ((r.hold c).addBh c.bh (-1)).addMnt c.mnt (-1) = r := by
  apply Refs.ext'
  · intro b
    simp only [hold, addBh, addMnt]
    split <;> omega
  · intro p
    simp only [hold, addBh, addMnt]
    split <;> omega
  · exact fun _ => rfl
  · rfl
  · rfl
  · rfl

/-- The attempt with other references, when some of the memory's answers are used up. --/
def Attempt.at (s : Attempt) (m : List Bool) (r : Refs) : Attempt := { s with sb := { s.sb with memory := m }, refs := r }

@[simp] theorem Attempt.at_bread (s : Attempt) (m : List Bool) (r : Refs) : (s.at m r).sb.bread = s.sb.bread := rfl
@[simp] theorem Attempt.at_kernPath (s : Attempt) (m : List Bool) (r : Refs) :
    (s.at m r).sb.kernPath = s.sb.kernPath := rfl
@[simp] theorem Attempt.at_sRoot (s : Attempt) (m : List Bool) (r : Refs) : (s.at m r).sRoot = s.sRoot := rfl
@[simp] theorem Attempt.at_starts (s : Attempt) (m : List Bool) (r : Refs) : (s.at m r).starts = s.starts := rfl

theorem changeRefs_at (s : Attempt) (m : List Bool) (r : Refs) (f : Refs → Refs) :
    changeRefs f (s.at m r) = .ok ⟨⟩ (s.at m (f r)) := rfl

theorem kzalloc_at (s : Attempt) (m : List Bool) (r : Refs) :
    kzalloc (s.at m r) = .ok (m.headD true) (s.at m.tail r) := by
  cases m with
  | nil => rfl
  | cons works rest => rfl

theorem freeChunk_hold (s : Attempt) (m : List Bool) (r : Refs) (c : Chunk) :
    freeChunk c (s.at m (r.hold c)) = .ok ⟨⟩ (s.at m r) := by
  refine (bind_ok (changeRefs_at ..)).trans ((changeRefs_at ..).trans ?_)
  rw [Refs.hold_cancel]

theorem freeChunks_held (s : Attempt) (m : List Bool) (r : Refs) (cs : List Chunk) :
    freeChunks cs (s.at m (r.held cs)) = .ok ⟨⟩ (s.at m r) := by
  induction cs with
  | nil => rfl
  | cons c cs ih =>
    rw [Refs.held_cons]
    exact (bind_ok (freeChunk_hold ..)).trans ih

/-! ### One chunk -/

/-- The client file system of a chunk is found where userland has mounted it. --/
structure Mounts (sb : Sb) (ci : ChunkInfo) : Prop where
  short : ci.Short
  found : sb.kernPath (mountPath ci.chunkId) = none

theorem kernPath_missing {path : List Char} {e : Errno} (h : s.sb.kernPath path = some e) :
    kernPath path (s.at m r) = .ok (some e) (s.at m r) := by
  simp only [kernPath, bind_apply, get_apply, Attempt.at_kernPath, h, pure_apply]

theorem kernPath_found {path : List Char} (h : s.sb.kernPath path = none) :
    kernPath path (s.at m r) = .ok none (s.at m ((r.addMnt path 1).addDentry path 1)) := by
  simp only [kernPath, bind_apply, get_apply, Attempt.at_kernPath, h, changeRefs_at, pure_apply]

/-- Of what was taken to find a client file system, one reference on its mount stays. --/
theorem Refs.mounted (r : Refs) (p : List Char) :
    ((((r.addMnt p 1).addDentry p 1).addMnt p 1).addDentry p (-1)).addMnt p (-1) = r.addMnt p 1 := by
  apply Refs.ext'
  · exact fun _ => rfl
  · intro q
    simp only [addMnt, addDentry]
    split <;> omega
  · intro q
    simp only [addMnt, addDentry]
    split <;> omega
  · rfl
  · rfl
  · rfl

theorem readClientSb_mounts {info : ChunkInfo} (h : Mounts s.sb info) :
    readClientSb info (s.at m r) = .ok none (s.at m (r.addMnt (mountPath info.chunkId) 1)) := by
  unfold readClientSb
  rw [if_neg (Nat.not_lt.mpr (ChunkInfo.short_iff.mp h.short))]
  refine (bind_ok (kernPath_found h.found)).trans ((bind_ok (changeRefs_at ..)).trans ?_)
  refine (bind_ok (changeRefs_at ..)).trans ?_
  rw [Refs.mounted]
  rfl

theorem readClientSb_unmounted {info : ChunkInfo} {e : Errno} (hs : info.Short)
    (hp : s.sb.kernPath (mountPath info.chunkId) = some e) :
    readClientSb info (s.at m r) = .ok (some e) (s.at m r) := by
  unfold readClientSb
  rw [if_neg (Nat.not_lt.mpr (ChunkInfo.short_iff.mp hs))]
  exact bind_ok (kernPath_missing hp)

theorem readClientSb_overflow {info : ChunkInfo} (hs : ¬info.Short) : readClientSb info s = .error .overflow s := by
  unfold readClientSb
  rw [if_pos (Nat.not_le.mp fun hle => hs (ChunkInfo.short_iff.mpr hle))]
  rfl

theorem readClientSb_meets (info : ChunkInfo) : Meets (readClientSb info) (s.at m r)
    (fun e t => (∃ e', e = some e' ∧ t = s.at m r) ∨
      e = none ∧ Mounts s.sb info ∧ t = s.at m (r.addMnt (mountPath info.chunkId) 1))
    (fun f _ => f = .overflow) := by
  by_cases hs : info.Short
  · cases hp : s.sb.kernPath (mountPath info.chunkId) with
    | none => exact meets_of_ok (readClientSb_mounts ⟨hs, hp⟩) (Or.inr ⟨rfl, ⟨hs, hp⟩, rfl⟩)
    | some e => exact meets_of_ok (readClientSb_unmounted hs hp) (Or.inl ⟨e, rfl, rfl⟩)
  · unfold Meets
    rw [readClientSb_overflow hs]

theorem sbBread_none (h : s.sb.bread o = none) : sbBread o (s.at m r) = .ok none (s.at m r) := by
  simp only [sbBread, bind_apply, get_apply, Attempt.at_bread, h, pure_apply]

theorem sbBread_some {b : Block} (h : s.sb.bread o = some b) : sbBread o (s.at m r) = .ok (some b) (s.at m (r.addBh o 1)) := by
  simp only [sbBread, bind_apply, get_apply, Attempt.at_bread, h, changeRefs_at, pure_apply]

theorem brelse_at (s : Attempt) (m : List Bool) (r : Refs) (blk : Nat) :
    brelse blk (s.at m (r.addBh blk 1)) = .ok ⟨⟩ (s.at m r) := by
  refine (changeRefs_at ..).trans ?_
  rw [Refs.addBh_cancel]

theorem readChunk_mounts {info : ChunkInfo} (hm : m.headD true = true) (hs : s.sb.summary? o = some (info, next))
    (h : Mounts s.sb info) :
    readChunk o (s.at m r) =
      .ok (.ok (⟨info, o / blkSize⟩, next)) (s.at m.tail (r.hold ⟨info, o / blkSize⟩)) := by
  unfold readChunk
  rw [bind_ok (kzalloc_at ..), hm]
  unfold Sb.summary? at hs
  cases hb : s.sb.bread (o / blkSize) with
  | none => simp [hb] at hs
  | some b =>
    simp only [hb, Option.ite_none_right_eq_some, Option.some.injEq, Prod.mk.injEq] at hs
    obtain ⟨hc, rfl, rfl⟩ := hs
    simp only [Bool.not_true, Bool.false_eq_true, ↓reduceIte]
    rw [bind_ok (sbBread_some hb)]
    simp only [hc, ne_eq, not_true_eq_false, ↓reduceIte]
    exact bind_ok (readClientSb_mounts h)

/-- A chunk that cannot be read or mounted keeps nothing. --/
theorem readChunk_meets : Meets (readChunk o) (s.at m r)
    (fun v t => (∃ e, v = .error e ∧ t = s.at m.tail r) ∨
      ∃ c next, v = .ok (c, next) ∧ m.headD true = true ∧ s.sb.summary? o = some (c.info, next) ∧ Mounts s.sb c.info ∧
        t = s.at m.tail (r.hold c))
    (fun f _ => f = .overflow) := by
  unfold readChunk
  refine meets_bind_ok (kzalloc_at ..) ?_
  cases hm : m.headD true with
  | false => exact Or.inl ⟨.enomem, rfl, rfl⟩
  | true =>
    simp only [Bool.not_true, Bool.false_eq_true, ↓reduceIte]
    cases hb : s.sb.bread (o / blkSize) with
    | none => exact meets_bind_ok (sbBread_none hb) (Or.inl ⟨.eio, rfl, rfl⟩)
    | some b =>
      refine meets_bind_ok (sbBread_some hb) ?_
      dsimp only
      split
      · exact meets_bind_ok (brelse_at ..) (Or.inl ⟨.eio, rfl, rfl⟩)
      · rename_i hc
        have hs := Sb.summary?_eq hb (not_not.mp hc)
        refine (readClientSb_meets _).bind ?_
        rintro e t (⟨e, rfl, rfl⟩ | ⟨rfl, hmounts, rfl⟩)
        · exact meets_bind_ok (brelse_at ..) (Or.inl ⟨e, rfl, rfl⟩)
        · exact Or.inr ⟨_, _, rfl, trivial, hs, hmounts, rfl⟩

/-! ### The loop -/

/-- An allocation works. --/
def Works (m : List Bool) (k : Nat) : Prop := m.getD k true = true

theorem works_zero : Works m 0 ↔ m.headD true = true := by
  cases m <;> rfl

theorem works_tail {k : Nat} : Works m.tail k ↔ Works m (k + 1) := by
  cases m <;> rfl

/-- How many root chunks a device has. --/
def Dev.roots (di : Dev) : Nat := if di.rootChunk.isSome then 1 else 0

/-- Device and pool once a chunk of the walk has been read. --/
def Dev.add (di : Dev) (c : Chunk) : Dev :=
  { di with chunks := di.chunks ++ [c], rootChunk := if c.info.isRoot then some c else di.rootChunk }

def Pool.add (pi : Pool) (c : Chunk) : Pool := if c.info.isRoot then { pi with rootDev := true } else pi

theorem Pool.add_devs (pi : Pool) (c : Chunk) : (pi.add c).devs = pi.devs := by
  unfold add
  split <;> rfl

/-- A second root chunk is an assertion that fails. --/
theorem readChunks_step {pi : Pool} {di : Dev} {v : Int} {c : Chunk} (ho : o ≠ 0)
    (hr : readChunk o s = .ok (.ok (c, next)) t) (hone : c.info.isRoot = true → pi.rootDev = false ∧ di.rootChunk = none) :
    readChunks (fuel + 1) pi di o v s = readChunks fuel (pi.add c) (di.add c) next 0 t := by
  rw [readChunks, if_neg ho, bind_ok hr]
  unfold Pool.add Dev.add
  cases hroot : c.info.isRoot with
  | false => simp only [hroot, Bool.false_eq_true, ↓reduceIte]
  | true =>
    obtain ⟨hp, hd⟩ := hone hroot
    simp only [hroot, hp, hd, Option.isSome_none, Bool.false_eq_true, ↓reduceIte]

theorem readChunks_second {pi : Pool} {di : Dev} {v : Int} {c : Chunk} (ho : o ≠ 0)
    (hr : readChunk o s = .ok (.ok (c, next)) t) (hroot : c.info.isRoot = true)
    (htwo : ¬(pi.rootDev = false ∧ di.rootChunk = none)) :
    readChunks (fuel + 1) pi di o v s = .error .bug t := by
  rw [readChunks, if_neg ho, bind_ok hr]
  simp only [hroot, ↓reduceIte]
  cases hp : pi.rootDev with
  | true => rfl
  | false =>
    cases hd : di.rootChunk with
    | some d => rfl
    | none => exact absurd ⟨hp, hd⟩ htwo

/-- A walk that is read to its end: every chunk of it is mounted and held, and `retval` is 0 once there was one. --/
structure Walked (s : Attempt) (m : List Bool) (r : Refs) (o : Nat) (pi : Pool) (di : Dev) (v : Int) (cs : List ChunkInfo)
    (v' : Int) (pi' : Pool) (di' : Dev) (t : Attempt) : Prop where
  walk : s.sb.Walk o cs true
  mounts : ∀ c ∈ cs, Mounts s.sb c
  memory : ∀ k < cs.length, Works m k
  roots : di'.roots = di.roots + Chunkfs.roots cs
  devs : pi'.devs = pi.devs
  retval : v' = if cs = [] then v else 0
  state : t = s.at (m.drop cs.length) (r.held di'.chunks)

theorem Dev.roots_eq_zero {di : Dev} : di.roots = 0 ↔ di.rootChunk = none := by
  unfold roots
  cases di.rootChunk <;> simp

/-- The pool agrees with its device on whether the root chunk was found. --/
theorem Pool.add_agrees {pi : Pool} {di : Dev} (c : Chunk) (h : pi.rootDev = di.rootChunk.isSome) :
    (pi.add c).rootDev = (di.add c).rootChunk.isSome := by
  unfold Pool.add Dev.add
  split
  · rfl
  · exact h

theorem Dev.add_roots {di : Dev} (h : c.info.isRoot = true → di.rootChunk = none) :
    (di.add c).roots = di.roots + if c.info.isRoot then 1 else 0 := by
  unfold add roots
  cases hroot : c.info.isRoot with
  | false => rfl
  | true =>
    rw [h hroot]
    rfl

theorem Walked.more {pi pi' : Pool} {di di' : Dev} {v v' : Int} {cs : List ChunkInfo} {t : Attempt} (ho : o ≠ 0)
    (hm : m.headD true = true) (hs : s.sb.summary? o = some (c.info, next)) (hc : Mounts s.sb c.info)
    (hone : c.info.isRoot = true → di.rootChunk = none)
    (h : Walked s m.tail r next (pi.add c) (di.add c) 0 cs v' pi' di' t) :
    Walked s m r o pi di v (c.info :: cs) v' pi' di' t where
  walk := .more ho hs h.walk
  mounts := List.forall_mem_cons.mpr ⟨hc, h.mounts⟩
  memory := by
    rintro (_ | k) hk
    · exact works_zero.mpr hm
    · exact works_tail.mp (h.memory k (Nat.lt_of_succ_lt_succ hk))
  roots := by
    rw [h.roots, Dev.add_roots hone, roots_cons]
    omega
  devs := h.devs.trans (pi.add_devs c)
  retval := h.retval.trans (ite_self 0)
  state := by
    rw [h.state, List.drop_tail]
    rfl

theorem readChunks_meets (fuel : Nat) (m : List Bool) (r : Refs) (pi : Pool) (di : Dev) (o : Nat) (v : Int) :
    Meets (readChunks fuel pi di o v) (s.at m (r.held di.chunks))
      (fun q t => (∃ e pi' di' m', q = (.error e, pi', di') ∧ e ≠ 0 ∧ t = s.at m' (r.held di'.chunks)) ∨
        ∃ v' pi' di' cs, q = (.ok v', pi', di') ∧ Walked s m r o pi di v cs v' pi' di' t)
      (fun f _ => f ≠ .nullRoot ∧ f ≠ .wild) := by
  induction fuel generalizing m pi di o v with
  | zero => exact ⟨nofun, nofun⟩
  | succ fuel ih =>
    by_cases ho : o = 0
    · subst ho
      exact Or.inr ⟨v, pi, di, [], rfl, .last, nofun, nofun, rfl, rfl, rfl, rfl⟩
    have hread := readChunk_meets (s := s) (m := m) (r := r.held di.chunks) (o := o)
    cases hr : readChunk o (s.at m (r.held di.chunks)) with
    | error f t =>
      unfold Meets at hread ⊢
      rw [hr] at hread
      rw [readChunks, if_neg ho, bind_error hr, hread]
      exact ⟨nofun, nofun⟩
    | ok q t =>
      rcases hread.ok hr with ⟨e, rfl, rfl⟩ | ⟨c, next, rfl, hm, hs, hc, rfl⟩
      · rw [readChunks, if_neg ho]
        exact meets_bind_ok hr (Or.inl ⟨e.ret, pi, di, m.tail, rfl, e.ret_neg.ne, rfl⟩)
      · rw [← Refs.held_concat] at hr
        by_cases hone : c.info.isRoot = true → pi.rootDev = false ∧ di.rootChunk = none
        · refine .of_eq ?_ (readChunks_step ho hr hone)
          refine (ih m.tail (pi.add c) (di.add c) next 0).mono ?_ fun _ _ => id
          rintro q t (h | ⟨v', pi', di', cs, rfl, h⟩)
          · exact Or.inl h
          · exact Or.inr ⟨v', pi', di', c.info :: cs, rfl, h.more ho hm hs hc fun hroot => (hone hroot).2⟩
        · obtain ⟨hroot, htwo⟩ := Classical.not_imp.mp hone
          unfold Meets
          rw [readChunks_second ho hr hroot htwo]
          exact ⟨nofun, nofun⟩

/-- The walk is read to its end where every chunk can be, and no two carry `CHUNKFS_ROOT`. --/
theorem readChunks_walked (m : List Bool) (r : Refs) (pi : Pool) (di : Dev) (v : Int) {cs : List ChunkInfo}
    (hw : s.sb.Walk o cs true) (hfuel : cs.length < fuel) (hmounts : ∀ c ∈ cs, Mounts s.sb c)
    (hmem : ∀ k < cs.length, Works m k) (hpi : pi.rootDev = di.rootChunk.isSome) (hone : di.roots + roots cs ≤ 1) :
    ∃ v' pi' di' t, readChunks fuel pi di o v (s.at m (r.held di.chunks)) = .ok (.ok v', pi', di') t ∧
      Walked s m r o pi di v cs v' pi' di' t := by
  suffices h : ∃ v' pi' di' t, readChunks fuel pi di o v (s.at m (r.held di.chunks)) = .ok (.ok v', pi', di') t by
    obtain ⟨v', pi', di', t, hr⟩ := h
    rcases (readChunks_meets fuel m r pi di o v).ok hr with ⟨e, _, _, _, he, -⟩ | ⟨_, _, _, cs', he, h⟩
    · cases he
    · cases he
      obtain ⟨rfl, -⟩ := hw.unique h.walk
      exact ⟨v', pi', di', t, hr, h⟩
  obtain ⟨fuel, rfl⟩ := Nat.exists_eq_succ_of_ne_zero (Nat.ne_zero_of_lt hfuel)
  generalize htrue : true = whole at hw
  induction hw generalizing fuel m pi di v with
  | last => exact ⟨v, pi, di, _, rfl⟩
  | bad => cases htrue
  | @more o next info cs _ ho hs _ ih =>
    obtain ⟨hc, hmounts⟩ := List.forall_mem_cons.mp hmounts
    obtain ⟨fuel, rfl⟩ := Nat.exists_eq_succ_of_ne_zero (Nat.ne_zero_of_lt (Nat.lt_of_succ_lt_succ hfuel))
    have hm : m.headD true = true := works_zero.mp (hmem 0 (Nat.succ_pos _))
    have hroots := hone
    rw [roots_cons] at hroots
    have hfirst : info.isRoot = true → di.rootChunk = none := by
      intro hroot
      rw [if_pos hroot] at hroots
      exact Dev.roots_eq_zero.mp (by omega)
    have hboth : info.isRoot = true → pi.rootDev = false ∧ di.rootChunk = none := by
      intro hroot
      have hd := hfirst hroot
      rw [hd] at hpi
      exact ⟨hpi, hd⟩
    rw [readChunks_step ho (readChunk_mounts hm hs hc) hboth, ← Refs.held_concat]
    refine ih m.tail (pi.add _) (di.add _) 0 hmounts (fun k hk => ?_) (pi.add_agrees _ hpi) ?_ fuel ?_ htrue
    · exact works_tail.mpr (hmem (k + 1) (Nat.succ_lt_succ hk))
    · have hadd : (di.add ⟨info, o / blkSize⟩).roots = _ := Dev.add_roots hfirst
      rw [hadd]
      dsimp only
      omega
    · exact Nat.lt_of_succ_lt_succ hfuel

/-! ### The device and the pool -/

/-- The device summary and every chunk can be read, and every client file system mounted. --/
structure ReadsDev (sb : Sb) (m : List Bool) (cs : List ChunkInfo) : Prop where
  walk : ∃ o, sb.innards? = some o ∧ sb.Walk o cs true
  mounts : ∀ c ∈ cs, Mounts sb c
  memory : ∀ k < cs.length + 1, Works m k

theorem ReadsDev.unique {sb : Sb} {m' : List Bool} {cs ds : List ChunkInfo} (h : ReadsDev sb m cs)
    (h' : ReadsDev sb m' ds) : cs = ds := by
  obtain ⟨o, ho, hw⟩ := h.walk
  obtain ⟨o', ho', hw'⟩ := h'.walk
  rw [ho] at ho'
  cases ho'
  exact (hw.unique hw').1

/-- What a device and its chunks hold. --/
def Refs.device (r : Refs) (di : Dev) : Refs := (r.addBh devBlk 1).held di.chunks

/-- The device that has been read, with its root chunk. --/
structure DevRead (s : Attempt) (m : List Bool) (r : Refs) (pi : Pool) (cs : List ChunkInfo) (pi' : Pool) (di' : Dev)
    (t : Attempt) : Prop where
  reads : ReadsDev s.sb m cs
  one : roots cs = 1
  devs : pi'.devs = pi.devs
  root : di'.rootChunk.isSome = true
  state : t = s.at (m.drop (cs.length + 1)) (r.device di')

theorem Walked.reads {pi pi' : Pool} {di di' : Dev} {v v' : Int} {cs : List ChunkInfo} (hm : m.headD true = true)
    (ho : s.sb.innards? = some o) (h : Walked s m.tail r o pi di v cs v' pi' di' t) : ReadsDev s.sb m cs where
  walk := ⟨o, ho, h.walk⟩
  mounts := h.mounts
  memory := by
    rintro (_ | k) hk
    · exact works_zero.mpr hm
    · exact works_tail.mp (h.memory k (Nat.lt_of_succ_lt_succ hk))

/-- How `chunkfs_read_dev` ends. When the walk has chunks but no root chunk, all is given back and 0 is returned. --/
theorem readDev_meets (fuel : Nat) (m : List Bool) (r : Refs) (pi : Pool) :
    Meets (readDev fuel pi) (s.at m r)
      (fun q t => (∃ v pi' m', q = (v, pi', none) ∧ t = s.at m' r ∧
          (v = 0 → ∃ cs, ReadsDev s.sb m cs ∧ cs ≠ [] ∧ roots cs = 0)) ∨
        ∃ pi' di' cs, q = (0, pi', some di') ∧ DevRead s m r pi cs pi' di' t)
      (fun f _ => f ≠ .nullRoot ∧ f ≠ .wild) := by
  have fails : ∀ (e : Errno), e.ret = 0 → ∃ cs, ReadsDev s.sb m cs ∧ cs ≠ [] ∧ roots cs = 0 := fun e he =>
    absurd he e.ret_neg.ne
  unfold readDev
  refine meets_bind_ok (kzalloc_at ..) ?_
  cases hm : m.headD true with
  | false => exact Or.inl ⟨_, pi, m.tail, rfl, rfl, fails .enomem⟩
  | true =>
    simp only [Bool.not_true, Bool.false_eq_true, ↓reduceIte]
    cases hb : s.sb.bread devBlk with
    | none => exact meets_bind_ok (sbBread_none hb) (Or.inl ⟨_, pi, m.tail, rfl, rfl, fails .eio⟩)
    | some dev =>
      refine meets_bind_ok (sbBread_some hb) ?_
      dsimp only
      split
      · exact meets_bind_ok (brelse_at ..) (Or.inl ⟨_, pi, m.tail, rfl, rfl, fails .eio⟩)
      · rename_i hc
        have hin := Sb.innards?_eq hb (not_not.mp hc)
        have hloop := readChunks_meets (s := s) fuel m.tail (r.addBh devBlk 1) pi
          { flags := dFlags dev, chunks := [], rootChunk := none } (dInnardsBegin dev) Errno.eio.ret
        refine hloop.bind ?_
        rintro q t (⟨e, pi', di', m', rfl, he, rfl⟩ | ⟨v', pi', di', cs, rfl, h⟩)
        · refine meets_bind_ok (freeChunks_held ..) (meets_bind_ok (brelse_at ..) ?_)
          exact Or.inl ⟨e, pi', m', rfl, rfl, fun hz => absurd hz he⟩
        · have hreads := h.reads hm hin
          have hroots : di'.roots = roots cs := h.roots.trans (Nat.zero_add _)
          cases hd : di'.rootChunk with
          | none =>
            rw [Dev.roots_eq_zero.mpr hd] at hroots
            simp only [hd, Option.isNone_none, ↓reduceIte, h.state]
            refine meets_bind_ok (freeChunks_held ..) (meets_bind_ok (brelse_at ..) ?_)
            refine Or.inl ⟨v', pi', _, rfl, rfl, fun hv => ⟨cs, hreads, ?_, hroots.symm⟩⟩
            rintro rfl
            exact Errno.eio.ret_neg.ne (h.retval.symm.trans hv)
          | some c =>
            have hroot : di'.rootChunk.isSome = true := by rw [hd]; rfl
            simp only [hd, Option.isNone_some, Bool.false_eq_true, ↓reduceIte]
            refine Or.inr ⟨pi', di', cs, rfl, hreads, ?_, h.devs, hroot, ?_⟩
            · rw [← hroots, Dev.roots, if_pos hroot]
            · rw [h.state, List.drop_tail]
              rfl

/-- Where every chunk can be read, `chunkfs_read_dev` returns 0 even if no chunk carries `CHUNKFS_ROOT`. --/
theorem readDev_reads (r : Refs) (pi : Pool) {cs : List ChunkInfo} (h : ReadsDev s.sb m cs) (hne : cs ≠ []) (hone : roots cs ≤ 1)
    (hfuel : cs.length < fuel) (hpi : pi.rootDev = false) :
    ∃ pi' di? t, readDev fuel pi (s.at m r) = .ok (0, pi', di?) t ∧ (di? = none ↔ roots cs = 0) := by
  obtain ⟨o, ho, hw⟩ := h.walk
  have hm : m.headD true = true := works_zero.mp (h.memory 0 (Nat.succ_pos _))
  have hmem : ∀ k < cs.length, Works m.tail k := fun k hk => works_tail.mpr (h.memory (k + 1) (Nat.succ_lt_succ hk))
  unfold Sb.innards? at ho
  cases hb : s.sb.bread devBlk with
  | none => simp [hb] at ho
  | some dev =>
    simp only [hb, Option.ite_none_right_eq_some, Option.some.injEq] at ho
    obtain ⟨hc, rfl⟩ := ho
    let di : Dev := { flags := dFlags dev, chunks := [], rootChunk := none }
    obtain ⟨v', pi', di', t, hr, h'⟩ := readChunks_walked m.tail (r.addBh devBlk 1) pi di Errno.eio.ret
      hw hfuel h.mounts hmem hpi (by simpa [di, Dev.roots] using hone)
    have hv : v' = 0 := h'.retval.trans (if_neg hne)
    have hroots : di'.roots = roots cs := h'.roots.trans (Nat.zero_add _)
    rw [← hroots, Dev.roots_eq_zero]
    unfold readDev
    rw [bind_ok (kzalloc_at ..), hm]
    simp only [Bool.not_true, Bool.false_eq_true, ↓reduceIte]
    rw [bind_ok (sbBread_some hb)]
    simp only [hc, ne_eq, not_true_eq_false, ↓reduceIte]
    rw [h'.state, hv] at hr
    cases hd : di'.rootChunk with
    | none =>
      refine ⟨pi', none, s.at (m.tail.drop cs.length) r, (bind_ok hr).trans ?_, iff_of_true rfl rfl⟩
      simp only [hd, Option.isNone_none, ↓reduceIte]
      exact (bind_ok (freeChunks_held ..)).trans ((bind_ok (brelse_at ..)).trans rfl)
    | some c =>
      refine ⟨pi', some di', s.at (m.tail.drop cs.length) ((r.addBh devBlk 1).held di'.chunks), (bind_ok hr).trans ?_,
        iff_of_false (Option.some_ne_none _) (Option.some_ne_none _)⟩
      simp only [hd, Option.isNone_some, Bool.false_eq_true, ↓reduceIte]
      rfl

/-- Pool, device and every chunk can be read, and every client file system mounted. --/
structure ReadsAll (sb : Sb) (cs : List ChunkInfo) : Prop where
  memory : Works sb.memory 0
  pool : ∃ pool, sb.bread poolBlk = some pool ∧ checkPool pool = 0
  dev : ReadsDev sb sb.memory.tail cs

/-- What a pool and its device hold. --/
def Refs.pool (r : Refs) (di : Dev) : Refs := (r.addBh poolBlk 1).device di

/-- The pool that has been read, with the chunk its root directory is in. --/
structure PoolRead (s : Attempt) (cs : List ChunkInfo) (pi : Pool) (t : Attempt) : Prop where
  reads : ReadsAll s.sb cs
  one : roots cs = 1
  root : (pi.devs.findSome? (·.rootChunk)).isSome = true
  state : ∃ di, t = s.at (s.sb.memory.drop (cs.length + 2)) (s.refs.pool di)

/-- An attempt that has read no pool: `s` but for the memory and for a pool that has been freed. --/
def Unread (s t : Attempt) : Prop := ∃ m' freed, t = { s.at m' s.refs with poolFreed := freed }

theorem readPool_meets (fuel : Nat) (s : Attempt) :
    Meets (readPool fuel) s
      (fun q t => (∃ v, q = (v, none) ∧ v ≠ 0 ∧ Unread s t) ∨ ∃ pi cs, q = (0, some pi) ∧ PoolRead s cs pi t)
      (fun f _ => f ≠ .nullRoot ∧ (f = .wild → ∃ cs, ReadsAll s.sb cs ∧ cs ≠ [] ∧ roots cs = 0)) := by
  unfold readPool
  refine meets_bind_ok (kzalloc_at s s.sb.memory s.refs) ?_
  cases hm : s.sb.memory.headD true with
  | false => exact Or.inl ⟨_, rfl, Errno.enomem.ret_neg.ne, s.sb.memory.tail, s.poolFreed, rfl⟩
  | true =>
    simp only [Bool.not_true, Bool.false_eq_true, ↓reduceIte]
    cases hb : s.sb.bread poolBlk with
    | none =>
      refine meets_bind_ok (sbBread_none hb) ?_
      exact Or.inl ⟨_, rfl, Errno.eio.ret_neg.ne, s.sb.memory.tail, true, rfl⟩
    | some pool =>
      refine meets_bind_ok (sbBread_some hb) ?_
      dsimp only
      split
      · refine meets_bind_ok (brelse_at ..) ?_
        exact Or.inl ⟨_, rfl, Errno.eio.ret_neg.ne, s.sb.memory.tail, true, rfl⟩
      · rename_i hc
        have hdev := readDev_meets (s := s) fuel s.sb.memory.tail (s.refs.addBh poolBlk 1)
          { flags := pFlags pool, devs := [], rootDev := false }
        refine .bind (hdev.mono (fun _ _ => id) fun f _ hf => ⟨hf.1, fun hw => absurd hw hf.2⟩) ?_
        have hreads : ∀ cs, ReadsDev s.sb s.sb.memory.tail cs → ReadsAll s.sb cs := fun cs h =>
          ⟨works_zero.mpr hm, ⟨pool, hb, not_not.mp hc⟩, h⟩
        rintro q t (⟨v, pi', m', rfl, rfl, hv⟩ | ⟨pi', di', cs, rfl, h⟩)
        · dsimp only
          split
          · rename_i hv
            exact meets_bind_ok (brelse_at ..) (Or.inl ⟨v, rfl, hv, m', true, rfl⟩)
          · rename_i hz
            obtain ⟨cs, h, hne, hroots⟩ := hv (not_not.mp hz)
            exact ⟨nofun, fun _ => ⟨cs, hreads cs h, hne, hroots⟩⟩
        · have hdevs : pi'.devs = [] := h.devs
          refine Or.inr ⟨_, cs, rfl, hreads cs h.reads, h.one, ?_, di', ?_⟩
          · obtain ⟨c, hroot⟩ := Option.isSome_iff_exists.mp h.root
            simp [hdevs, hroot]
          · rw [h.state, List.drop_tail]
            rfl

theorem readPool_of_dev {pool : Block} {pi : Pool} {di? : Option Dev} (hm : s.sb.memory.headD true = true)
    (hb : s.sb.bread poolBlk = some pool) (hc : checkPool pool = 0)
    (hr : readDev fuel { flags := pFlags pool, devs := [], rootDev := false }
      (s.at s.sb.memory.tail (s.refs.addBh poolBlk 1)) = .ok (0, pi, di?) t) :
    readPool fuel s = di?.elim (.error .wild t) fun di => .ok (0, some { pi with devs := pi.devs ++ [di] }) t := by
  unfold readPool
  refine (bind_ok (kzalloc_at s s.sb.memory s.refs)).trans ?_
  rw [hm]
  simp only [Bool.not_true, Bool.false_eq_true, ↓reduceIte]
  refine (bind_ok (sbBread_some hb)).trans ?_
  simp only [hc, ne_eq, not_true_eq_false, ↓reduceIte]
  refine (bind_ok hr).trans ?_
  cases di? <;> rfl

/-- Where every chunk can be read, `chunkfs_read_pool` follows a device pointer that was never set, or has the root chunk. --/
theorem readPool_reads {cs : List ChunkInfo} (h : ReadsAll s.sb cs) (hne : cs ≠ []) (hone : roots cs ≤ 1)
    (hfuel : cs.length < fuel) :
    (roots cs = 0 → ∃ t, readPool fuel s = .error .wild t) ∧
      (roots cs = 1 → ∃ pi t, readPool fuel s = .ok (0, some pi) t ∧ PoolRead s cs pi t) := by
  obtain ⟨pool, hb, hc⟩ := h.pool
  obtain ⟨pi', di?, t, hr, hdi⟩ := readDev_reads (s.refs.addBh poolBlk 1)
    { flags := pFlags pool, devs := [], rootDev := false } h.dev hne hone hfuel rfl
  have hrun := readPool_of_dev (works_zero.mp h.memory) hb hc hr
  constructor
  · intro hz
    rw [hdi.mpr hz] at hrun
    exact ⟨t, hrun⟩
  · intro hroot
    cases hd : di? with
    | none =>
      rw [hdi.mp hd] at hroot
      cases hroot
    | some di' =>
      rw [hd] at hrun
      refine ⟨_, t, hrun, ?_⟩
      rcases (readPool_meets fuel s).ok hrun with ⟨v, he, -⟩ | ⟨pi, cs', he, hp⟩
      · cases he
      · cases he
        rw [h.dev.unique hp.reads.dev]
        exact hp

/-! ### Without the references -/

def Fault.stop : Fault → Stop
  | .bug => .bug
  | .hang => .hang
  | .nullRoot | .wild | .overflow | .noInode => .oops

def Dev.info (di : Dev) : DevInfo :=
  { flags := di.flags, chunks := di.chunks.map (·.info), rootChunk := di.rootChunk.map (·.info) }

def Pool.info (pi : Pool) : PoolInfo := { flags := pi.flags, devs := pi.devs.map (·.info), rootDev := pi.rootDev }

theorem kzalloc_seen (s : Attempt) : Chunkfs.kzalloc s.sb = mapResult Attempt.sb Fault.stop id (kzalloc s) := by
  unfold Chunkfs.kzalloc kzalloc
  cases s.sb.memory <;> rfl

theorem readClientSb_seen (info : ChunkInfo) (s : Attempt) :
    Chunkfs.readClientSb info s.sb = mapResult Attempt.sb Fault.stop id (readClientSb info s) := by
  by_cases hs : info.Short
  · rw [readClientSb_short hs]
    cases hp : s.sb.kernPath (mountPath info.chunkId) with
    | none =>
      have hr := readClientSb_mounts (m := s.sb.memory) (r := s.refs) (⟨hs, hp⟩ : Mounts s.sb info)
      exact (congrArg (mapResult Attempt.sb Fault.stop id) hr).symm
    | some e =>
      have hr := readClientSb_unmounted (m := s.sb.memory) (r := s.refs) hs hp
      exact (congrArg (mapResult Attempt.sb Fault.stop id) hr).symm
  · rw [readClientSb_long hs, readClientSb_overflow hs]
    rfl

/-- References are not seen. --/
theorem changeRefs_seen {α β : Type} {g : α → β} {k : Unit → Try α} {m : Mount β} (f : Refs → Refs)
    (h : ∀ t : Attempt, t.sb = s.sb → m s.sb = mapResult Attempt.sb Fault.stop g (k ⟨⟩ t)) :
    m s.sb = mapResult Attempt.sb Fault.stop g ((changeRefs f >>= k) s) := h _ rfl

theorem freeChunks_seen {α β : Type} {g : α → β} {k : Unit → Try α} {m : Mount β} (cs : List Chunk)
    (h : ∀ t : Attempt, t.sb = s.sb → m s.sb = mapResult Attempt.sb Fault.stop g (k ⟨⟩ t)) :
    m s.sb = mapResult Attempt.sb Fault.stop g ((freeChunks cs >>= k) s) := by
  have hr : ∀ t : Attempt, ∃ u, freeChunks cs t = .ok ⟨⟩ u ∧ u.sb = t.sb := by
    induction cs with
    | nil => exact fun t => ⟨t, rfl, rfl⟩
    | cons c cs ih => exact fun t => ih _
  obtain ⟨u, hu, hsb⟩ := hr s
  rw [bind_ok hu]
  exact h u hsb

theorem sbBread_seen {α β : Type} {g : α → β} {k : Option Block → Try α} {m : Mount β} {blk : Nat}
    (hnone : s.sb.bread blk = none → m s.sb = mapResult Attempt.sb Fault.stop g (k none s))
    (hsome : ∀ b (t : Attempt), s.sb.bread blk = some b → t.sb = s.sb →
      m s.sb = mapResult Attempt.sb Fault.stop g (k (some b) t)) :
    m s.sb = mapResult Attempt.sb Fault.stop g ((sbBread blk >>= k) s) := by
  cases hb : s.sb.bread blk with
  | none =>
    have hr : sbBread blk s = .ok none s := sbBread_none (m := s.sb.memory) (r := s.refs) hb
    rw [bind_ok hr]
    exact hnone hb
  | some b =>
    have hr : sbBread blk s = .ok (some b) _ := sbBread_some (m := s.sb.memory) (r := s.refs) hb
    rw [bind_ok hr]
    exact hsome b _ hb rfl

theorem readChunk_seen (o : Nat) (s : Attempt) : Chunkfs.readChunk o s.sb =
    mapResult Attempt.sb Fault.stop (Except.map fun (c, next) => (c.info, next)) (readChunk o s) := by
  unfold Chunkfs.readChunk readChunk
  refine mapResult_bind (kzalloc_seen s) fun works t => ?_
  cases works with
  | false => rfl
  | true =>
    simp only [id, Bool.not_true, Bool.false_eq_true, ↓reduceIte]
    rw [bind_apply, get_apply]
    refine sbBread_seen (fun hb => ?_) fun b u hb hu => ?_
    · simp only [hb]
      rfl
    · simp only [hb]
      rw [← hu]
      split
      · exact changeRefs_seen _ fun t ht => congrArg (EStateM.Result.ok _) ht.symm
      · refine mapResult_bind (readClientSb_seen _ u) fun r t => ?_
        cases r with
        | none => rfl
        | some e => exact changeRefs_seen _ fun t ht => congrArg (EStateM.Result.ok _) ht.symm

theorem Dev.info_rootChunk (di : Dev) : di.info.rootChunk.isSome = di.rootChunk.isSome := Option.isSome_map

def Dev.append (di : Dev) (c : Chunk) (root : Option Chunk) : Dev :=
  { di with chunks := di.chunks ++ [c], rootChunk := root }

theorem Dev.info_append (di : Dev) (c : Chunk) (root : Option Chunk) : (di.append c root).info =
    { di.info with chunks := di.info.chunks ++ [c.info], rootChunk := root.map (·.info) } := by
  simp [Dev.info, append]

theorem Pool.info_rootDev (pi : Pool) : pi.info.rootDev = pi.rootDev := rfl

theorem readChunks_seen (fuel : Nat) (pi : Pool) (di : Dev) (o : Nat) (v : Int) (s : Attempt) :
    Chunkfs.readChunks fuel pi.info di.info o v s.sb =
      mapResult Attempt.sb Fault.stop (fun (r, pi, di) => (r, pi.info, di.info)) (readChunks fuel pi di o v s) := by
  induction fuel generalizing pi di o v s with
  | zero => rfl
  | succ fuel ih =>
    rw [Chunkfs.readChunks, readChunks]
    split
    · rfl
    · refine mapResult_bind (readChunk_seen o s) fun r t => ?_
      rcases r with e | ⟨c, next⟩
      · rfl
      · simp only [Except.map]
        split
        · rw [Dev.info_rootChunk, Pool.info_rootDev]
          split
          · rfl
          · split
            · rfl
            · refine Eq.trans ?_ (ih { pi with rootDev := true } (di.append c (some c)) next 0 t)
              rw [Dev.info_append]
              rfl
        · refine Eq.trans ?_ (ih pi (di.append c di.rootChunk) next 0 t)
          rw [Dev.info_append]
          rfl

theorem readDev_seen (fuel : Nat) (pi : Pool) (s : Attempt) : Chunkfs.readDev fuel pi.info s.sb =
    mapResult Attempt.sb Fault.stop (fun (v, pi, di) => (v, pi.info, di.map (·.info))) (readDev fuel pi s) := by
  unfold Chunkfs.readDev readDev
  refine mapResult_bind (kzalloc_seen s) fun works t => ?_
  cases works with
  | false => rfl
  | true =>
    simp only [id, Bool.not_true, Bool.false_eq_true, ↓reduceIte]
    rw [bind_apply, get_apply]
    refine sbBread_seen (fun hb => ?_) fun b u hb hu => ?_
    · simp only [hb]
      rfl
    · simp only [hb]
      rw [← hu]
      split
      · exact changeRefs_seen _ fun t ht => congrArg (EStateM.Result.ok _) ht.symm
      · let di : Dev := { flags := dFlags b, chunks := [], rootChunk := none }
        refine mapResult_bind (readChunks_seen fuel pi di (dInnardsBegin b) _ u) fun r t => ?_
        obtain ⟨e | v, pi', di'⟩ := r
        · refine freeChunks_seen _ fun w hw => ?_
          rw [← hw]
          exact changeRefs_seen _ fun w' hw' => congrArg (EStateM.Result.ok _) hw'.symm
        · cases hd : di'.rootChunk with
          | none =>
            simp only [hd, Dev.info, Option.map_none, Option.isNone_none, ↓reduceIte]
            refine freeChunks_seen _ fun w hw => ?_
            rw [← hw]
            exact changeRefs_seen _ fun w' hw' => congrArg (EStateM.Result.ok _) hw'.symm
          | some c =>
            have hroot : di'.info.rootChunk.isNone = false := by
              rw [Dev.info, hd]
              rfl
            simp only [hd, hroot, Option.isNone_some, Bool.false_eq_true, ↓reduceIte]
            rfl

/-- Reading the pool is reading it without the references. --/
theorem readPool_seen (fuel : Nat) (s : Attempt) : Chunkfs.readPool fuel s.sb =
    mapResult Attempt.sb Fault.stop (fun (v, pi) => (v, pi.map (·.info))) (readPool fuel s) := by
  unfold Chunkfs.readPool readPool
  refine mapResult_bind (kzalloc_seen s) fun works t => ?_
  cases works with
  | false => rfl
  | true =>
    simp only [id, Bool.not_true, Bool.false_eq_true, ↓reduceIte]
    rw [bind_apply, get_apply]
    refine sbBread_seen (fun hb => ?_) fun b u hb hu => ?_
    · simp only [hb]
      rfl
    · simp only [hb]
      rw [← hu]
      split
      · exact changeRefs_seen _ fun t ht => congrArg (EStateM.Result.ok _) ht.symm
      · let pi : Pool := { flags := pFlags b, devs := [], rootDev := false }
        refine mapResult_bind (readDev_seen fuel pi u) fun r t => ?_
        obtain ⟨v, pi', di'⟩ := r
        dsimp only
        split
        · exact changeRefs_seen _ fun t ht => congrArg (EStateM.Result.ok _) ht.symm
        · cases di' with
          | none => rfl
          | some di =>
            have hdevs : ({ pi' with devs := pi'.devs ++ [di] } : Pool).info =
                { pi'.info with devs := pi'.info.devs ++ [di.info] } := by
              simp [Pool.info]
            exact congrArg (fun p => EStateM.Result.ok (0, some p) t.sb) hdevs.symm

/-! ### The root directory -/

theorem not_works_three : (∃ k < 3, ¬Works m (k + 1)) ↔
    m.tail.headD true = false ∨ (m.tail.tail.headD true && m.tail.tail.tail.headD true) = false := by
  have hh : ∀ l : List Bool, l.headD true = false ↔ ¬Works l 0 := fun l =>
    Bool.not_eq_true _ ▸ not_congr works_zero.symm
  rw [Bool.and_eq_false_iff, hh, hh, hh, works_tail, works_tail, works_tail, works_tail, works_tail, works_tail]
  constructor
  · rintro ⟨_ | _ | _ | k, hk, hw⟩
    · exact Or.inl hw
    · exact Or.inr (Or.inl hw)
    · exact Or.inr (Or.inr hw)
    · omega
  · rintro (hw | hw | hw)
    · exact ⟨0, by decide, hw⟩
    · exact ⟨1, by decide, hw⟩
    · exact ⟨2, by decide, hw⟩

/-- The root inode is there, and what follows does not all work: its directory is found, `d_make_root` works, and so does
    `chunkfs_init_dentry`. --/
def RootFails (sb : Sb) (starts : Bool) (m : List Bool) : Prop :=
  Works m 0 ∧ (sb.kernPath rootPath ≠ none ∨ starts = true ∧ ∃ k < 3, ¬Works m (k + 1))

theorem freeDentry_null (h : s.sRoot = false) (m : List Bool) (r : Refs) :
    freeDentry (s.at m r) = .error .nullRoot (s.at m r) := by
  simp only [freeDentry, bind_apply, get_apply, Attempt.at_sRoot, h, Bool.not_false, ↓reduceIte, throw_apply]

theorem initDentry_at (s : Attempt) (m : List Bool) (r : Refs) :
    initDentry (s.at m r) =
      .ok (m.headD true && m.tail.headD true) (s.at (if m.headD true then m.tail.tail else m.tail) r) := by
  unfold initDentry
  rw [bind_ok (kzalloc_at ..)]
  cases hm : m.headD true with
  | false => rfl
  | true => exact kzalloc_at ..

/-- One reference on the root inode less; the last one takes one on its client inode along. --/
def Refs.put (r : Refs) : Refs := { r with inode := r.inode - 1, client := r.client - if r.inode = 1 then 1 else 0 }

theorem iput_at (s : Attempt) (m : List Bool) (r : Refs) : iput (s.at m r) = .ok ⟨⟩ (s.at m r.put) := by
  unfold iput Refs.put
  rw [bind_ok (changeRefs_at ..), bind_apply, get_apply]
  by_cases hr : r.inode = 1
  · have hlast : r.inode - 1 = 0 := by omega
    rw [if_pos hr]
    exact congrFun (if_pos hlast) _
  · have hmore : r.inode - 1 ≠ 0 := by omega
    rw [if_neg hr, Int.sub_zero]
    exact congrFun (if_neg hmore) _

/-- The same of the root dentry, whose last reference takes one on the root inode along. --/
def Refs.putRoot (r : Refs) : Refs :=
  if r.root = 1 then ({ r with root := r.root - 1 } : Refs).put else { r with root := r.root - 1 }

theorem dputRoot_at (s : Attempt) (m : List Bool) (r : Refs) : dputRoot (s.at m r) = .ok ⟨⟩ (s.at m r.putRoot) := by
  unfold dputRoot Refs.putRoot
  rw [bind_ok (changeRefs_at ..), bind_apply, get_apply]
  by_cases hr : r.root = 1
  · have hlast : r.root - 1 = 0 := by omega
    rw [if_pos hr]
    exact (congrFun (if_pos hlast) _).trans (iput_at ..)
  · have hmore : r.root - 1 ≠ 0 := by omega
    rw [if_neg hr]
    exact congrFun (if_neg hmore) _

theorem Refs.putRoot_bh (r : Refs) : r.putRoot.bh = r.bh := by
  unfold putRoot
  split <;> rfl

/-- `chunkfs_read_root` returns 0 or keeps the pool's references; without a directory it begins with `sb->s_root`. --/
theorem readRoot_meets (ci : Chunk) (m : List Bool) (r : Refs) (hs : s.sRoot = false) :
    Meets (readRoot ci) (s.at m r)
      (fun v t => v = 0 ∧ ¬RootFails s.sb s.starts m ∨ v ≠ 0 ∧ RootFails s.sb s.starts m ∧ t.refs.bh = r.bh)
      (fun f _ => f ≠ .wild ∧ (f = .nullRoot ↔ RootFails s.sb s.starts m)) := by
  unfold readRoot
  refine meets_bind_ok (kzalloc_at ..) ?_
  cases hm : m.headD true with
  | false =>
    refine ⟨nofun, nofun, fun hf => ?_⟩
    exact absurd (hm.symm.trans (works_zero.mp hf.1)) Bool.false_ne_true
  | true =>
    have h0 : Works m 0 := works_zero.mpr hm
    simp only [Bool.not_true, Bool.false_eq_true, ↓reduceIte]
    refine meets_bind_ok (changeRefs_at ..) ?_
    cases hp : s.sb.kernPath rootPath with
    | some e =>
      have hf : RootFails s.sb s.starts m := ⟨h0, Or.inl (by rw [hp]; exact Option.some_ne_none e)⟩
      refine meets_bind_ok (kernPath_missing hp) ?_
      unfold Meets
      dsimp only
      rw [bind_error (freeDentry_null hs _ _)]
      exact ⟨nofun, fun _ => hf, fun _ => rfl⟩
    | none =>
      refine meets_bind_ok (kernPath_found hp) ?_
      refine meets_bind_ok (changeRefs_at ..) (meets_get_bind ?_)
      cases hst : s.starts with
      | false =>
        simp only [Attempt.at_starts, hst, Bool.not_false, ↓reduceIte]
        refine ⟨nofun, nofun, ?_⟩
        rintro ⟨-, hmiss | ⟨hyes, -⟩⟩
        · exact absurd hp hmiss
        · exact absurd hyes Bool.false_ne_true
      | true =>
        simp only [Attempt.at_starts, hst, Bool.not_true, Bool.false_eq_true, ↓reduceIte]
        have hfails := not_works_three (m := m)
        refine meets_bind_ok (kzalloc_at ..) ?_
        cases h1 : m.tail.headD true with
        | false =>
          refine meets_bind_ok (iput_at ..) (meets_bind_ok (iput_at ..) ?_)
          exact Or.inr ⟨Errno.enomem.ret_neg.ne, ⟨h0, Or.inr ⟨rfl, hfails.mpr (Or.inl h1)⟩⟩, rfl⟩
        | true =>
          simp only [↓reduceIte]
          refine meets_bind_ok (t := Attempt.at { s with sRoot := true } m.tail.tail _) rfl ?_
          refine meets_bind_ok (initDentry_at ..) ?_
          cases h2 : m.tail.tail.headD true && m.tail.tail.tail.headD true with
          | false =>
            simp only [Bool.false_eq_true, ↓reduceIte]
            refine meets_bind_ok (dputRoot_at ..) (meets_bind_ok (iput_at ..) ?_)
            exact Or.inr ⟨Errno.enomem.ret_neg.ne, ⟨h0, Or.inr ⟨rfl, hfails.mpr (Or.inr h2)⟩⟩, Refs.putRoot_bh _⟩
          | true =>
            simp only [↓reduceIte]
            refine Or.inl ⟨rfl, ?_⟩
            rintro ⟨-, hmiss | ⟨-, hw⟩⟩
            · exact hmiss hp
            · rcases hfails.mp hw with h | h
              · exact Bool.false_ne_true (h.symm.trans h1)
              · exact Bool.false_ne_true (h.symm.trans h2)

/-! ### The mount -/

theorem Refs.le_held (r : Refs) (cs : List Chunk) (blk : Nat) : r.bh blk ≤ (r.held cs).bh blk := by
  induction cs with
  | nil => exact le_refl _
  | cons c cs ih =>
    rw [held_cons]
    simp only [hold, addBh, addMnt]
    split <;> omega

theorem Refs.pool_pos {di : Dev} (h : r.bh poolBlk = 0) : 0 < (r.pool di).bh poolBlk := by
  refine lt_of_lt_of_le ?_ (le_held ..)
  simp only [addBh, h]
  decide

/-- The pool's own buffer is still held when `chunkfs_read_root` has failed. --/
theorem readRootOf_meets {cs : List ChunkInfo} {pi : Pool} (h : PoolRead s cs pi t) (hs : s.sRoot = false)
    (hr : s.refs.bh poolBlk = 0) :
    Meets (readRootOf pi) { t with fsInfo := true }
      (fun v t' => v = 0 ∧ ¬RootFails s.sb s.starts (s.sb.memory.drop (cs.length + 2)) ∨
        v ≠ 0 ∧ RootFails s.sb s.starts (s.sb.memory.drop (cs.length + 2)) ∧ 0 < t'.refs.bh poolBlk)
      (fun f _ => f ≠ .wild ∧ (f = .nullRoot ↔ RootFails s.sb s.starts (s.sb.memory.drop (cs.length + 2)))) := by
  obtain ⟨c, hc⟩ := Option.isSome_iff_exists.mp h.root
  obtain ⟨di, hst⟩ := h.state
  unfold readRootOf
  rw [hc, hst]
  have hroot := readRoot_meets (s := { s with fsInfo := true }) c (s.sb.memory.drop (cs.length + 2)) (s.refs.pool di) hs
  refine hroot.mono ?_ fun _ _ => id
  rintro v t' (hz | ⟨hv, hf, hbh⟩)
  · exact Or.inl hz
  · refine Or.inr ⟨hv, hf, ?_⟩
    rw [hbh]
    exact Refs.pool_pos hr

theorem fillSuper_of_pool {pi : Pool} (hb : s.blocksize = true) (hr : readPool fuel s = .ok (0, some pi) t) :
    fillSuper fuel s = readRootOf pi { t with fsInfo := true } := by
  unfold fillSuper
  rw [bind_apply, get_apply]
  simp only [hb, Bool.not_true, Bool.false_eq_true, ↓reduceIte]
  exact (bind_ok hr).trans rfl

theorem fillSuper_wild (hb : s.blocksize = true) (hr : readPool fuel s = .error .wild t) :
    fillSuper fuel s = .error .wild t := by
  unfold fillSuper
  rw [bind_apply, get_apply]
  simp only [hb, Bool.not_true, Bool.false_eq_true, ↓reduceIte]
  exact bind_error hr

/-- A failed attempt holds no reference any more, and its super block leads neither to a pool nor to a dentry that has been
    freed. --/
structure GaveBack (t : Attempt) : Prop where
  bh : ∀ blk, t.refs.bh blk = 0
  mnt : ∀ path, t.refs.mnt path = 0
  dentry : ∀ path, t.refs.dentry path = 0
  inode : t.refs.inode = 0
  root : t.refs.root = 0
  pool : t.fsInfo = true → t.poolFreed = false
  sRoot : t.sRoot = true → 0 < t.refs.root

/-- A mount that fails gives everything back, and none dereferences `sb->s_root` while it is NULL, or a device that was never
    set. --/
def GivesBack (sb : Sb) (blocksize starts : Bool) : Prop :=
  ∀ fuel, Meets (fillSuper fuel) (start sb blocksize starts) (fun v t => v ≠ 0 → GaveBack t)
    (fun f _ => f ≠ .nullRoot ∧ f ≠ .wild)

/-- The mount gets past the chunks: none of them carries `CHUNKFS_ROOT`, or one does and `chunkfs_read_root` fails. --/
def FailsLate (sb : Sb) (blocksize starts : Bool) : Prop :=
  blocksize = true ∧ ∃ cs, ReadsAll sb cs ∧
    (cs ≠ [] ∧ roots cs = 0 ∨ roots cs = 1 ∧ RootFails sb starts (sb.memory.drop (cs.length + 2)))

theorem GaveBack.start (sb : Sb) (m : List Bool) (blocksize starts freed : Bool) :
    GaveBack { (start sb blocksize starts).at m (start sb blocksize starts).refs with poolFreed := freed } :=
  ⟨fun _ => rfl, fun _ => rfl, fun _ => rfl, rfl, rfl, nofun, nofun⟩

theorem GivesBack.not_late {sb : Sb} {blocksize starts : Bool} (h : GivesBack sb blocksize starts) :
    ¬FailsLate sb blocksize starts := by
  rintro ⟨hb, cs, hreads, ⟨hne, hz⟩ | ⟨hone, hfails⟩⟩
  · obtain ⟨t, hr⟩ := (readPool_reads (s := start sb blocksize starts) hreads hne (by omega) (Nat.lt_succ_self _)).1 hz
    have hrun := h (cs.length + 1)
    unfold Meets at hrun
    rw [fillSuper_wild hb hr] at hrun
    exact hrun.2 rfl
  · have hne : cs ≠ [] := by
      rintro rfl
      cases hone
    obtain ⟨pi, t, hr, hp⟩ :=
      (readPool_reads (s := start sb blocksize starts) hreads hne hone.le (Nat.lt_succ_self _)).2 hone
    have hrun := h (cs.length + 1)
    have hroot := readRootOf_meets hp rfl rfl
    unfold Meets at hrun hroot
    rw [fillSuper_of_pool hb hr] at hrun
    cases hq : readRootOf pi { t with fsInfo := true } with
    | ok v t' =>
      rw [hq] at hrun hroot
      rcases hroot with ⟨-, hno⟩ | ⟨hv, -, hpos⟩
      · exact hno hfails
      · exact hpos.ne' ((hrun hv).bh poolBlk)
    | error f t' =>
      rw [hq] at hrun hroot
      exact hrun.1 (hroot.2.mpr hfails)

theorem fillSuper_meets (sb : Sb) (blocksize starts : Bool) (fuel : Nat) (hlate : ¬FailsLate sb blocksize starts) :
    Meets (fillSuper fuel) (start sb blocksize starts) (fun v t => v ≠ 0 → GaveBack t)
      (fun f _ => f ≠ .nullRoot ∧ f ≠ .wild) := by
  unfold fillSuper
  refine meets_get_bind ?_
  cases hb : blocksize with
  | false => exact fun _ => GaveBack.start sb sb.memory false starts false
  | true =>
    rw [hb] at hlate
    have hpool := readPool_meets fuel (start sb true starts)
    refine Meets.bind (hpool.mono (fun _ _ => id) fun f _ hf => ⟨hf.1, fun hw => ?_⟩) ?_
    · obtain ⟨cs, hreads, hne, hz⟩ := hf.2 hw
      exact hlate ⟨rfl, cs, hreads, Or.inl ⟨hne, hz⟩⟩
    rintro q t (⟨v, rfl, hv, m', freed, rfl⟩ | ⟨pi, cs, rfl, hp⟩)
    · dsimp only
      rw [if_pos hv]
      exact fun _ => GaveBack.start sb m' true starts freed
    · have hno : ¬RootFails sb starts (sb.memory.drop (cs.length + 2)) := fun hfails =>
        hlate ⟨rfl, cs, hp.reads, Or.inr ⟨hp.one, hfails⟩⟩
      have hroot := readRootOf_meets hp rfl rfl
      refine Meets.of_eq (n := readRootOf pi) (hroot.mono ?_ ?_) rfl
      · rintro v t' (⟨hz, -⟩ | ⟨-, hfails, -⟩) hv
        · exact absurd hz hv
        · exact absurd hfails hno
      · exact fun f _ hf => ⟨fun hnull => hno (hf.2.mp hnull), hf.1⟩

/-- A failed mount gives everything back unless all its chunks could be read. --/
theorem gives_back_iff (sb : Sb) (blocksize starts : Bool) :
    GivesBack sb blocksize starts ↔ ¬FailsLate sb blocksize starts :=
  ⟨GivesBack.not_late, fun h fuel => fillSuper_meets sb blocksize starts fuel h⟩

/-- A device whose only chunk is a root chunk, in which the directory `/root/` was not made. --/
def noRootDir : Sb := { oneChunk chunkfsRoot with kernPath := fun path => if path = rootPath then some .enoent else none }

/-- `sb->s_root` is NULL there when `chunkfs_free_dentry` takes its private data. --/
theorem not_gives_back_no_root_dir : ¬GivesBack noRootDir true true := by
  intro h
  have hs : noRootDir.summary? 40960 = some (⟨chunkfsRoot, 1⟩, 0) := by decide +kernel
  have hmem : ∀ k, Works noRootDir.memory k := fun _ => rfl
  refine h.not_late ⟨rfl, [⟨chunkfsRoot, 1⟩], ⟨hmem 0, ⟨_, rfl, by decide +kernel⟩, ?_⟩, Or.inr ⟨by decide, hmem 3, Or.inl ?_⟩⟩
  · refine ⟨⟨40960, by decide +kernel, .more (by decide) hs .last⟩, ?_, fun k _ => hmem (k + 1)⟩
    intro c hc
    cases List.mem_singleton.mp hc
    exact ⟨by decide, by decide +kernel⟩
  · exact Option.some_ne_none Errno.enoent

end Mounting
end Chunkfs
