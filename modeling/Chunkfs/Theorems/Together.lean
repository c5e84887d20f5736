import Chunkfs.Theorems.Store
import Chunkfs.Theorems.Writers

/-! Any number of calls of `chunkfs_write` on segments that a file has, in any interleaving of their searches and their
    client writes. A search only reads, and the segment it has found stays the one for its offset; so each call takes
    effect when its client write does, and the file is the flat file written to in that order. -/

namespace Chunkfs.Writers
open Exec Run Flat
variable {ι : Type} {ws : ι → Writer} {w : World} {d : Dentry} {cs : List Continuation} {f : Bytes UInt8} {e : Env}

/-- The bytes of a call that the client stores. --/
def Writer.stored (e : Env) (x : Writer) : List UInt8 := x.data.take (e.transfer x.data.length)

/-- What an event does to the flat file. --/
def flatAfter (ws : ι → Writer) (e : Env) (f : Bytes UInt8) : Event ι → Bytes UInt8
  | .finish i => f.write (ws i).ppos.toNat ((ws i).stored e)
  | _ => f

/-- The call writes to one segment, which the file has and reaches. --/
structure Inside (d : Dentry) (segments : Nat) (e : Env) (f : Bytes UInt8) (x : Writer) : Prop where
  file : x.file.dentry = d
  flags : x.file.flags &&& oAppend = 0
  nonneg : 0 ≤ x.ppos
  segment : x.ppos.toNat / segLen < segments
  one : x.ppos.toNat + (x.stored e).length ≤ segLen * (x.ppos.toNat / segLen) + segLen
  reach : segLen * (x.ppos.toNat / segLen) ≤ f.size

theorem Inside.write {x : Writer} {segments : Nat} (h : Inside d segments e f x) (p : Nat) (data : List UInt8) :
    Inside d segments e (f.write p data) x where
  file := h.file
  flags := h.flags
  nonneg := h.nonneg
  segment := h.segment
  one := h.one
  reach := by
    rcases eq_or_ne data [] with rfl | hne
    · rw [Bytes.write_nil]
      exact h.reach
    · rw [Bytes.size_write f hne]
      exact h.reach.trans (Nat.le_max_left _ _)

/-- How far a call has come, that has the segment of its offset open in between. --/
def Phase.Within (cs : List Continuation) (x : Writer) : Phase → Prop
  | .start => True
  | .missed _ => False
  | .opened o => ∃ c, cs[x.ppos.toNat / segLen]? = some c ∧ o = openedAt c x.file.flags x.ppos
  | .ended o => o.isSome = true

variable [DecidableEq ι]

/-- The file holds the flat file, and each call is within it. --/
structure Together (ws : ι → Writer) (d : Dentry) (cs : List Continuation) (e : Env) (f : Bytes UInt8) (s : State ι) :
    Prop where
  work : Workable s.world d cs
  contents : Contents s.world d cs f
  env : s.world.env = e
  inside : ∀ i, Inside d cs.length e f (ws i)
  within : ∀ i, (s.phase i).Within cs (ws i)

section Steps
variable {s s' : State ι} {es : List (Event ι)} {i : ι}

theorem Inside.ppos_lt {x : Writer} (h : Inside d cs.length e f x) (hw : Workable w d cs) : x.ppos.toNat < 2 ^ 60 := by
  have hseg := h.segment
  have hlen := hw.length_le
  have hdiv := Nat.lt_div_mul_add (a := x.ppos.toNat) (show 0 < segLen by decide)
  have hmul := Nat.mul_le_mul_right segLen (show x.ppos.toNat / segLen ≤ 15 by omega)
  unfold segLen at *
  omega

theorem Together.search (h : Together ws d cs e f s) (hs : s.phase i = .start) :
    ∃ o w', openContFile (ws i).file (ws i).ppos s.world = .ok (.ok o) w' ∧ Together ws d cs e f (s.go i (.opened o) w') := by
  have hin := h.inside i
  obtain ⟨c, hc⟩ : ∃ c, cs[(ws i).ppos.toNat / segLen]? = some c := ⟨_, List.getElem?_eq_getElem hin.segment⟩
  obtain ⟨w', hr, hw⟩ := h.work.search_finds hin.file (Nat.lt_of_lt_of_le (hin.ppos_lt h.work) (by decide)) hc
  rw [Int.toNat_of_nonneg hin.nonneg] at hr
  refine ⟨_, w', hr, h.work.warm hw, h.contents.warm hw, (h.work.calm.env_eq hw).trans h.env, h.inside, fun j => ?_⟩
  by_cases hj : j = i
  · subst hj
    rw [State.go_same]
    exact ⟨c, hc, rfl⟩
  · rw [State.go_of_ne _ hj]
    exact h.within j

/-- The client write is where a call takes effect. --/
theorem Together.finish (h : Together ws d cs e f s) {o : Opened} (hs : s.phase i = .opened o) :
    ∃ r w', writeOpened (ws i).file (ws i).data o s.world = .ok r w' ∧ r.ret = ((ws i).stored e).length ∧
      Together ws d cs e (f.write (ws i).ppos.toNat ((ws i).stored e)) (s.go i (.ended (some o)) w') := by
  have hin := h.inside i
  have hphase := h.within i
  rw [hs] at hphase
  obtain ⟨c, hc, rfl⟩ := hphase
  obtain ⟨p, hp⟩ : ∃ p : Nat, (ws i).ppos = p := ⟨_, (Int.toNat_of_nonneg hin.nonneg).symm⟩
  have hlt := hin.ppos_lt h.work
  have hseg := hin.segment
  have hone := hin.one
  have hreach := hin.reach
  rw [hp, Int.toNat_natCast] at hc hlt hseg hone hreach ⊢
  obtain ⟨vn, hv, -⟩ := h.work.head.vnode
  obtain ⟨y, hy, -⟩ := h.contents.pieces _ c hc
  have hstart := h.work.start hc
  have hpos := Nat.mul_div_le p segLen
  have hmem := List.mem_of_getElem? hc
  have hstored : (ws i).stored e = (ws i).data.take (s.world.env.transfer (ws i).data.length) := by
    rw [h.env]
    rfl
  have hat : ((p - segLen * (p / segLen) : Nat) : Int) =
      writeStart (openedAt c (ws i).file.flags p).file y ((p : Int) - c.cd.start) := by
    rw [writeStart_of_not_append hin.flags, hstart]
    omega
  obtain ⟨w', hr, hw⟩ := writeOpened_stores h.work.toChain h.work.calm h.work.length_lt hv hin.file hmem hy
    (ws i).file.flags (by omega) (by omega) hstored hat (by unfold segLen at *; omega)
  have hv₁ : (s.world.wrote c.inode (p - segLen * (p / segLen)) ((ws i).stored e)).vnode d.inode = some vn := hv
  have hwork : Workable ((s.world.wrote c.inode (p - segLen * (p / segLen)) ((ws i).stored e)).copiedUp d vn
      (y.wrote s.world.env (p - segLen * (p / segLen)) ((ws i).stored e)) cs) d cs :=
    h.work.kept ((Kept.wrote s.world _ _ _).trans (.copiedUp hv₁ _)) rfl h.work.readable
  have hsucc := Nat.mul_le_mul_left segLen (Nat.succ_le_of_lt hseg)
  rw [Nat.mul_succ] at hsucc
  have hcontents := (h.contents.pieces.wrote h.work.nodup hc hpos hone fun _ => hreach).copiedUp
    (h.work.toFileChain.kept (.wrote s.world _ _ _)) (write_size_le h.contents.fits fun _ => hone.trans hsucc) vn
    (y.wrote s.world.env (p - segLen * (p / segLen)) ((ws i).stored e))
  refine ⟨_, w', hr, rfl, hwork.warm hw, hcontents.warm hw, (hwork.calm.env_eq hw).trans h.env,
    fun j => (h.inside j).write p _, fun j => ?_⟩
  by_cases hj : j = i
  · subst hj
    rw [State.go_same]
    rfl
  · rw [State.go_of_ne _ hj]
    exact h.within j

/-- What each step keeps. --/
theorem Together.step {ev : Event ι} (h : Together ws d cs e f s) (hs : step ws s ev = some s') :
    Together ws d cs e (flatAfter ws e f ev) s' := by
  cases ev with
  | search i =>
    cases hph : s.phase i with
    | start =>
      obtain ⟨o, w', hr, h'⟩ := h.search hph
      simp only [Writers.step, hph, hr, State.after, afterSearch, Option.some.injEq] at hs
      exact hs ▸ h'
    | missed seen => simp [Writers.step, hph] at hs
    | opened o => simp [Writers.step, hph] at hs
    | ended o => simp [Writers.step, hph] at hs
  | append i =>
    have hin := h.within i
    cases hph : s.phase i with
    | missed seen =>
      rw [hph] at hin
      exact hin.elim
    | start => simp [Writers.step, hph] at hs
    | opened o => simp [Writers.step, hph] at hs
    | ended o => simp [Writers.step, hph] at hs
  | finish i =>
    cases hph : s.phase i with
    | opened o =>
      obtain ⟨r, w', hr, -, h'⟩ := h.finish hph
      simp only [Writers.step, hph, hr, State.after, Option.some.injEq] at hs
      exact hs ▸ h'
    | start => simp [Writers.step, hph] at hs
    | missed seen => simp [Writers.step, hph] at hs
    | ended o => simp [Writers.step, hph] at hs

/-- What a run keeps. --/
theorem Together.run (h : Together ws d cs e f s) (hs : run (Writers.step ws) s es = some s') :
    Together ws d cs e (es.foldl (flatAfter ws e) f) s' := by
  induction es generalizing s f with
  | nil =>
    cases hs
    exact h
  | cons ev es ih =>
    obtain ⟨t, ht, hrest⟩ := Option.bind_eq_some_iff.mp hs
    exact ih (h.step ht) hrest

end Steps

/-- However the steps of calls inside a file come between each other, no call fails and no write is lost: what is read
    afterwards is what the writes, in the order of their client writes, make of the flat file. --/
theorem writes_take_effect_in_order (h : Workable w d cs) (hc : Contents w d cs f)
    (hin : ∀ i, Inside d cs.length w.env f (ws i)) (es : List (Event ι)) {s : State ι}
    (hrun : run (step ws) (begin w) es = some s) :
    let g := es.foldl (flatAfter ws w.env) f
    (∀ i, s.phase i ≠ .ended none) ∧ ∀ (file : File) (p len : Nat), file.dentry = d → p < 2 ^ 63 →
      ∃ r w', read file len p s.world = .ok r w' ∧ r.ret = r.buf.length ∧
        r.buf = g.read p (min (w.env.transfer len) (segLen * (p / segLen) + segLen - p)) := by
  intro g
  have ht : Together ws d cs w.env g s :=
    Together.run (s := begin w) ⟨h, hc, rfl, hin, fun _ => trivial⟩ hrun
  refine ⟨fun i hi => ?_, fun file p len hfile hp => ?_⟩
  · have hphase := ht.within i
    rw [hi] at hphase
    cases hphase
  · obtain ⟨r, w', hr, hbuf, hret, -⟩ := ht.contents.reads ht.work.toFileChain ht.work.calm ht.work.length_lt hfile hp len
    rw [ht.env] at hbuf
    exact ⟨r, w', hr, hret, hbuf⟩

/-- Two calls whose ranges meet. --/
def meeting : Bool → Writer
  | false => ⟨firstFile, [1, 2, 3], 0⟩
  | true => ⟨firstFile, [4, 5], 1⟩

/-- Both search before either writes, and the second writes first. --/
theorem writes_take_effect_in_order_meeting :
    let es : List (Event Bool) := [.search false, .search true, .finish true, .finish false]
    let g := es.foldl (flatAfter meeting quietEnv) Bytes.empty
    ∃ s, run (step meeting) (begin threeChunks) es = some s ∧
      (∀ i, s.phase i ≠ .ended none) ∧ ∀ (file : File) (p len : Nat), file.dentry = firstDentry → p < 2 ^ 63 →
        ∃ r w', read file len p s.world = .ok r w' ∧ r.ret = r.buf.length ∧
          r.buf = g.read p (min (quietEnv.transfer len) (segLen * (p / segLen) + segLen - p)) := by
  intro es g
  obtain ⟨c, hwork, -⟩ := threeChunks_workable
  have hnew := oneFile_quiet (show ∀ k ∈ [1, 2, 3], 1 ≤ k ∧ k ≤ 10 by decide) (by decide)
  have hh := hnew.holds (oneFile_undisturbed _)
  have h : Workable threeChunks firstDentry [headOf firstDentry] :=
    ⟨hh.toFileChain, hh.sound, hh.calm, hh.fuel, hwork.readable⟩
  have hends : (run (step meeting) (begin threeChunks) es).isSome = true := by decide +kernel
  obtain ⟨s, hs⟩ := Option.isSome_iff_exists.mp hends
  refine ⟨s, hs, writes_take_effect_in_order h ⟨hh.pieces, hh.fits, hh.size⟩ (fun i => ?_) es hs⟩
  cases i <;> exact ⟨rfl, rfl, by decide, by decide, by decide, by decide⟩

end Chunkfs.Writers
