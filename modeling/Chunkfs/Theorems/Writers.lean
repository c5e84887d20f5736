import Chunkfs.Lib.Run
import Chunkfs.Theorems.NewFile
import Chunkfs.Writers

/-! Any number of calls of `chunkfs_write` on one file, each at an offset that the file has or that the next segment
    will have. A call whose search missed appends behind whatever is last by then, so all is well as long as nobody
    has appended in between, and never otherwise. -/

namespace Chunkfs.Writers
open Exec Run
variable {ι : Type} {w w' u : World} {d : Dentry} {cs init : List Continuation} {t : Continuation} {c : ClientIno}

/-! ### Files that are written to -/

/-- A chain on which every call works: no client inode is bad or half read in. Stale files may lie around. --/
structure Workable (w : World) (d : Dentry) (cs : List Continuation) : Prop extends FileChain w d cs where
  sound : Sound w
  calm : Calm w
  fuel : 16 < w.env.fuel
  readable : ∀ c, w.Readable c

/-- A file can be opened or made at the path. --/
def Room (w : World) (path : List Char) : Prop :=
  w.disk.path path ≠ none ∨ ∃ k, w.disk.dir (dirname path) = some k ∧ w.disk.inode ⟨k, w.env.ialloc k⟩ = none

theorem Room.opens {path : List Char} (h : Room w path) (mode : Nat) : ∃ c u, w.openPath path mode = .ok (c, u) := by
  unfold World.openPath
  cases hp : w.disk.path path with
  | some c => exact ⟨c, _, rfl⟩
  | none =>
    rcases h with h | ⟨k, hdir, hfree⟩
    · exact absurd hp h
    · refine ⟨⟨k, w.env.ialloc k⟩, w.withFile path ⟨k, w.env.ialloc k⟩ mode, ?_⟩
      simp [hdir, hfree]

theorem Room.of_openPath {path : List Char} {mode : Nat} (ho : w.openPath path mode = .ok (c, u)) : Room w path := by
  rcases openPath_cases ho with ⟨hp, -⟩ | ⟨-, hdir, hino, hfree, -⟩
  · exact Or.inl (by rw [hp]; exact Option.some_ne_none c)
  · refine Or.inr ⟨c.chunk, hdir, ?_⟩
    rw [← hino]
    exact hfree

/-- What a step that only reads or writes data leaves of a world. --/
structure Same (w w' : World) : Prop where
  path : w'.disk.path = w.disk.path
  dir : w'.disk.dir = w.disk.dir
  free : ∀ x, w.disk.inode x = none → w'.disk.inode x = none
  env : w'.env = w.env

theorem Same.trans {w'' : World} (h : Same w w') (h' : Same w' w'') : Same w w'' where
  path := h'.path.trans h.path
  dir := h'.dir.trans h.dir
  free x hx := h'.free x (h.free x hx)
  env := h'.env.trans h.env

theorem Same.room {path : List Char} (h : Same w w') (hr : Room w path) : Room w' path := by
  unfold Room at hr ⊢
  rw [h.path, h.dir, h.env]
  rcases hr with hr | ⟨k, hdir, hfree⟩
  · exact Or.inl hr
  · exact Or.inr ⟨k, hdir, h.free _ hfree⟩

theorem Same.of_warm (hc : Calm w) (h : Warm w w') : Same w w' where
  path := by rw [h.disk]
  dir := by rw [h.disk]
  free x hx := by rw [h.disk]; exact hx
  env := hc.env_eq h

theorem Same.wrote (w : World) (x : ClientIno) (pos : Nat) (stored : List UInt8) : Same w (w.wrote x pos stored) where
  path := rfl
  dir := rfl
  free _ hy := Disk.inode_modify_eq_none.mpr hy
  env := rfl

theorem Same.copiedUp (w : World) (d : Dentry) (vn : Vnode) (i : ClientInode) (cs : List Continuation) :
    Same w (w.copiedUp d vn i cs) where
  path := rfl
  dir := rfl
  free _ hx := hx
  env := rfl

namespace Workable

theorem kept (h : Workable w d cs) (hk : Kept w w') (henv : w'.env = w.env) (hr : ∀ c, w'.Readable c) :
    Workable w' d cs where
  toFileChain := h.toFileChain.kept hk
  sound := h.sound.kept hk
  calm := by
    unfold Calm
    rw [henv]
    exact h.calm
  fuel := henv ▸ h.fuel
  readable := hr

theorem warm (h : Workable w d cs) (hw : Warm w w') : Workable w' d cs :=
  h.kept hw.kept (h.calm.env_eq hw) fun c => hw.readable (h.readable c)

theorem length_lt (h : Workable w d cs) : cs.length < w.env.fuel := by
  have h₁ := h.length_le
  have h₂ := h.fuel
  omega

theorem exists_last (h : Workable w d cs) : ∃ init t, cs = init ++ [t] := by
  obtain ⟨t, ht⟩ : ∃ t, cs.getLast? = some t := Option.isSome_iff_exists.mp (by simp [h.ne_nil])
  exact ⟨_, t, (List.dropLast_append_getLast? t ht).symm⟩

/-- The elements of a chain lie in the chunks before the one that the next element lies in. --/
theorem canFollow (h : Workable w d cs) (ht : cs.getLast? = some t) (ho : w.openPath (nextPath t) contMode = .ok (c, u)) :
    CanFollow u d cs t c := by
  refine h.sound.canFollow h.toLinked ht (fun hp => ⟨fun hmem => ?_, h.readable c⟩) h.number ho
  obtain ⟨x, hx, rfl⟩ := List.mem_map.mp hmem
  obtain ⟨i, hi⟩ := List.mem_iff_getElem?.mp hx
  have hchunk := h.chunk hi
  have hlt := (List.getElem?_eq_some_iff.mp hi).1
  have hnext := (h.sound.file _ _ _ _ hp).1
  rw [(h.last_onDisk ht).chunk, (h.last_eq ht).2.1] at hnext
  omega

theorem grown (h : Workable w d (init ++ [t])) (ho : w.openPath (nextPath t) contMode = .ok (c, u)) :
    Workable (growStage u t c 4 4) d (init ++ [relinked t c, appended t c]) := by
  have henv : u.env = w.env := (openPath_env ho).1
  refine ⟨(h.toFileChain.openPath ho).grown (h.canFollow (by simp) ho), (h.sound.openPath ho).growStage t c 4 4, ?_, ?_,
    fun x => ?_⟩
  · show u.env.script = []
    rw [henv]
    exact h.calm
  · show 16 < u.env.fuel
    rw [henv]
    exact h.fuel
  · show u.Readable x
    rcases openPath_cases ho with ⟨-, rfl⟩ | ⟨-, -, -, -, rfl⟩
    · exact (readIn_warm c).readable (h.readable x)
    · by_cases hx : x = c
      · exact Or.inl (by simp [World.withFile, hx])
      · have := h.readable x
        unfold World.Readable at this ⊢
        simpa [World.withFile, hx] using this

section Steps
variable {file : File} {p : Nat}

theorem search_finds (h : Workable w d cs) (hfile : file.dentry = d) (hp : p < 2 ^ 63) {x : Continuation}
    (hx : cs[p / segLen]? = some x) :
    ∃ w', openContFile file p w = .ok (.ok (openedAt x file.flags p)) w' ∧ Warm w w' := by
  have hfind : cs.find? (·.cd.covers p) = some x := (h.find_covers hp).trans hx
  exact (openContFile_finds h.calm.honest hfile
    (getContAtOffset_finds (h.walkable.follows h.calm.honest) h.length_lt hfind)).reads.calm h.calm

theorem search_misses (h : Workable w d cs) (hfile : file.dentry = d) (hp : p < 2 ^ 63) (hx : cs.length ≤ p / segLen) :
    ∃ w', openContFile file p w = .ok (.error .enoent) w' ∧ Warm w w' := by
  have hfind : cs.find? (·.cd.covers p) = none := (h.find_covers hp).trans (List.getElem?_eq_none hx)
  exact (openContFile_error hfile
    (getContAtOffset_enoent (h.walkable.follows h.calm.honest) h.length_lt hfind)).calm h.calm

theorem append_grows (h : Workable w d (init ++ [t])) (hfile : file.dentry = d)
    (ho : w.openPath (nextPath t) contMode = .ok (c, u)) (p : Int) :
    ∃ w', createContinuation file p w = .ok (.ok (openedAt (appended t c) oCreatRdwr p)) w' ∧
      Workable w' d (init ++ [relinked t c, appended t c]) := by
  obtain ⟨w', hr, hw, -⟩ := createContinuation_calm h.walkable h.calm h.length_lt hfile ho
    (h.canFollow (by simp) ho) p
  exact ⟨w', hr, (h.grown ho).warm hw⟩

theorem append_fails (h : Workable w d cs) (hfile : file.dentry = d) (ht : cs.getLast? = some t) {e : Errno}
    (ho : w.openPath (nextPath t) contMode = .error e) (p : Int) :
    ∃ w', createContinuation file p w = .ok (.error e) w' ∧ Warm w w' :=
  (createContinuation_fails h.walkable h.calm.honest h.length_lt ht ho hfile p).calm h.calm

theorem finish_keeps (h : Workable w d cs) (hfile : file.dentry = d) {o : Opened} (hmem : o.file.inode ∈ cs.map (·.inode))
    (data : List UInt8) : ∃ r w', writeOpened file data o w = .ok r w' ∧ Workable w' d cs ∧ Same w w' := by
  obtain ⟨r, w', vn, i, start, stored, -, hr, hv, hw⟩ := writeOpened_warm h.toChain h.calm h.length_lt hfile hmem data
  have hv₁ : (w.wrote o.file.inode start stored).vnode d.inode = some vn := hv
  have hsame := (Same.wrote w o.file.inode start stored).trans (.copiedUp _ d vn i cs)
  have hwork : Workable ((w.wrote o.file.inode start stored).copiedUp d vn i cs) d cs :=
    h.kept ((Kept.wrote w o.file.inode start stored).trans (.copiedUp hv₁ i)) rfl h.readable
  exact ⟨r, w', hr, hwork.warm hw, hsame.trans (.of_warm hwork.calm hw)⟩

end Steps

end Workable

/-! ### What is claimed of a run -/

/-- The client file open for a call at offset `p` is that of a segment which contains the offset, at the offset less
    the segment's start. --/
structure Placed (p : Int) (o : Opened) : Prop where
  contains : (o.cont.cd.start : Int) ≤ p ∧ p < o.cont.cd.start + o.cont.cd.len
  ppos : o.ppos = p - o.cont.cd.start
  pos : o.file.pos = p - o.cont.cd.start
  inode : o.file.inode = o.cont.inode

def Phase.Well (p : Int) : Phase → Prop
  | .start => True
  | .missed _ => True
  | .opened o => Placed p o
  | .ended none => False
  | .ended (some o) => Placed p o

/-- Every call that is beyond its search has its segment, and every element behind the first `n` holds the offset of
    some call. --/
structure Good (ws : ι → Writer) (d : Dentry) (n : Nat) (s : State ι) : Prop where
  well : ∀ i, (s.phase i).Well (ws i).ppos
  needed : ∃ cs, FileChain s.world d cs ∧ n ≤ cs.length ∧ ∀ x ∈ cs.drop n, ∃ i, x.cd.covers (ws i).ppos = true

/-- The call has missed, and has seen all the appends made. --/
def Phase.SeenAll (appends : Nat) : Phase → Prop
  | .missed seen => seen = appends
  | _ => False

instance (appends : Nat) : ∀ ph, Decidable (Phase.SeenAll appends ph)
  | .missed seen => inferInstanceAs (Decidable (seen = appends))
  | .start => isFalse id
  | .opened _ => isFalse id
  | .ended _ => isFalse id

/-- When a call appends, nobody has appended since its search. --/
def Current (s : State ι) : Event ι → Prop
  | .append i => (s.phase i).SeenAll s.appends
  | _ => True

instance (s : State ι) : ∀ e, Decidable (Current s e)
  | .append i => inferInstanceAs (Decidable ((s.phase i).SeenAll s.appends))
  | .search _ => isTrue trivial
  | .finish _ => isTrue trivial

/-! ### The invariant -/

/-- The chain has grown by what has been appended, at most once and for a call that needs it. --/
structure Inv (ws : ι → Writer) (d : Dentry) (n : Nat) (s : State ι) (cs : List Continuation) : Prop where
  work : Workable s.world d cs
  length : cs.length = n + s.appends
  once : s.appends ≤ 1
  room : s.appends = 0 → (∃ i, segLen * n ≤ (ws i).ppos) → ∀ t ∈ cs.getLast?, Room s.world (nextPath t)
  wanted : s.appends = 1 → ∃ i, segLen * n ≤ (ws i).ppos
  well : ∀ i, (s.phase i).Well (ws i).ppos
  missed : ∀ i seen, s.phase i = .missed seen → seen = 0 ∧ segLen * n ≤ (ws i).ppos
  opened : ∀ i o, s.phase i = .opened o → o.file.inode ∈ cs.map (·.inode)

section Runs
variable {ws : ι → Writer} {n : Nat} {s : State ι} {i : ι}

theorem Placed.of_covers {x : Continuation} {p q : Nat} (hx : x.cd.start = segLen * q) (hlen : x.cd.len = segLen)
    (hq : p / segLen = q) (hp : p < 2 ^ 63) (flags : Nat) : Placed p (openedAt x flags p) := by
  have hcontains : x.cd.start ≤ p ∧ p < x.cd.start + x.cd.len := by
    rw [hx, hlen, ← hq]
    unfold segLen
    omega
  have hpos : copyDownFile p x.cd.start = p - x.cd.start := copyDownFile_eq (by omega) (by omega)
  exact ⟨by constructor <;> simp only [openedAt_cont] <;> omega, hpos, hpos, rfl⟩

theorem Inv.good (h : Inv ws d n s cs) (hpos : ∀ i, 0 ≤ (ws i).ppos ∧ (ws i).ppos < segLen * (n + 1)) : Good ws d n s := by
  refine ⟨h.well, cs, h.work.toFileChain, by rw [h.length]; exact Nat.le_add_right _ _, fun x hx => ?_⟩
  obtain ⟨j, hj⟩ := List.mem_iff_getElem?.mp hx
  rw [List.getElem?_drop] at hj
  have hlt := (List.getElem?_eq_some_iff.mp hj).1
  have honce := h.once
  have hlength := h.length
  obtain ⟨i, hi⟩ := h.wanted (by omega)
  obtain ⟨h₀, hend⟩ := hpos i
  have hstart := h.work.start hj
  have hlen := h.work.len x (List.mem_of_getElem? hj)
  have hle := h.work.length_le
  have hj₀ : j = 0 := by omega
  rw [hj₀, Nat.add_zero] at hstart
  refine ⟨i, (covers_iff h₀ ?_).mpr ?_⟩
  · unfold segLen at hend
    omega
  · rw [hstart, hlen]
    unfold segLen at hi hend ⊢
    omega

variable [DecidableEq ι]

/-- A step that leaves the chain and puts its call into a good phase. --/
theorem Inv.go (h : Inv ws d n s cs) (hwork : Workable w' d cs) (hsame : Same s.world w') {ph : Phase}
    (hwell : ph.Well (ws i).ppos) (hmissed : ∀ seen, ph = .missed seen → seen = 0 ∧ segLen * n ≤ (ws i).ppos)
    (hopened : ∀ o, ph = .opened o → o.file.inode ∈ cs.map (·.inode)) : Inv ws d n (s.go i ph w') cs where
  work := hwork
  length := h.length
  once := h.once
  room ha hw t ht := hsame.room (h.room ha hw t ht)
  wanted := h.wanted
  well j := by
    by_cases hj : j = i
    · rw [hj, State.go_same]
      exact hwell
    · rw [State.go_of_ne s hj]
      exact h.well j
  missed j seen hjs := by
    by_cases hj : j = i
    · rw [hj, State.go_same] at hjs
      rw [hj]
      exact hmissed seen hjs
    · rw [State.go_of_ne s hj] at hjs
      exact h.missed j seen hjs
  opened j o hjo := by
    by_cases hj : j = i
    · rw [hj, State.go_same] at hjo
      exact hopened o hjo
    · rw [State.go_of_ne s hj] at hjo
      exact h.opened j o hjo

/-- The first append, for a call that needs it. --/
theorem Inv.grown (h : Inv ws d n s (init ++ [t])) (hnone : s.appends = 0) (hlast : segLen * n ≤ (ws i).ppos)
    (hp : (ws i).ppos < segLen * (n + 1)) {flags : Nat} (hwork : Workable w' d (init ++ [relinked t c, appended t c])) :
    Inv ws d n { s.go i (.opened (openedAt (appended t c) flags (ws i).ppos)) w' with appends := s.appends + 1 }
      (init ++ [relinked t c, appended t c]) := by
  have hlength := h.length
  have hinodes : ∀ x, x ∈ (init ++ [t]).map (·.inode) → x ∈ (init ++ [relinked t c, appended t c]).map (·.inode) := by
    intro x hx
    simp only [List.map_append, List.map_cons, List.map_nil, List.mem_append, List.mem_cons, List.not_mem_nil,
      or_false] at hx ⊢
    rcases hx with hx | hx
    · exact Or.inl hx
    · exact Or.inr (Or.inl hx)
  have hplaced : Placed (ws i).ppos (openedAt (appended t c) flags (ws i).ppos) := by
    have hnew : (init ++ [relinked t c, appended t c])[n]? = some (appended t c) := by
      have hn : n = init.length + 1 := by
        simp only [List.length_append, List.length_singleton, hnone] at hlength
        omega
      rw [hn]
      simp
    have hle := hwork.length_le
    simp only [List.length_append, List.length_cons, List.length_nil, hnone] at hlength hle
    have hof := Placed.of_covers (p := (ws i).ppos.toNat) (hwork.start hnew)
      (hwork.len _ (List.mem_of_getElem? hnew)) (by unfold segLen at *; omega) (by unfold segLen at *; omega) flags
    rwa [Int.toNat_of_nonneg (by unfold segLen at *; omega)] at hof
  refine ⟨hwork, ?_, by rw [hnone], fun ha => ?_, fun _ => ⟨i, hlast⟩, fun j => ?_, fun j seen hjs => ?_, fun j o hjo => ?_⟩
  · simp only [List.length_append, List.length_cons, List.length_nil] at hlength ⊢
    omega
  · exact absurd ha (Nat.succ_ne_zero _)
  · by_cases hj : j = i
    · rw [hj]
      exact (congrArg (Phase.Well (ws i).ppos) (State.go_same s i _ w')).mpr hplaced
    · exact (congrArg (Phase.Well (ws j).ppos) (State.go_of_ne s hj _ w')).mpr (h.well j)
  · by_cases hj : j = i
    · subst hj
      have := (State.go_same s j _ w').symm.trans hjs
      cases this
    · exact h.missed j seen ((State.go_of_ne s hj _ w').symm.trans hjs)
  · by_cases hj : j = i
    · subst hj
      have := (State.go_same s j _ w').symm.trans hjo
      cases this
      simp [openedAt]
    · exact hinodes _ (h.opened j o ((State.go_of_ne s hj _ w').symm.trans hjo))

/-! ### Steps -/

section Steps
variable (hfile : ∀ i, (ws i).file.dentry = d)
include hfile

theorem Inv.finish (h : Inv ws d n s cs) {s' : State ι} (hstep : step ws s (.finish i) = some s') : Inv ws d n s' cs := by
  simp only [step] at hstep
  split at hstep
  swap
  · cases hstep
  · rename_i o ho
    obtain ⟨r, w', hr, hwork, hsame⟩ := h.work.finish_keeps (hfile i) (h.opened i o ho) (ws i).data
    have hwell := h.well i
    rw [ho] at hwell
    rw [hr] at hstep
    cases hstep
    exact h.go hwork hsame hwell nofun nofun

variable (hpos : ∀ i, 0 ≤ (ws i).ppos ∧ (ws i).ppos < segLen * (n + 1))
include hpos

theorem Inv.search (h : Inv ws d n s cs) {s' : State ι} (hstep : step ws s (.search i) = some s') : Inv ws d n s' cs := by
  simp only [step] at hstep
  split at hstep
  swap
  · cases hstep
  · obtain ⟨h₀, hend⟩ := hpos i
    have hlength := h.length
    have honce := h.once
    have hle := h.work.length_le
    have hlt : (ws i).ppos.toNat < 2 ^ 63 := by
      unfold segLen at hend
      omega
    have hp : ((ws i).ppos.toNat : Int) = (ws i).ppos := Int.toNat_of_nonneg h₀
    cases hx : cs[(ws i).ppos.toNat / segLen]? with
    | some x =>
      obtain ⟨w', hr, hw⟩ := h.work.search_finds (hfile i) hlt hx
      have hplaced := Placed.of_covers (h.work.start hx) (h.work.len x (List.mem_of_getElem? hx)) rfl hlt (ws i).file.flags
      rw [hp] at hr hplaced
      rw [hr] at hstep
      cases hstep
      exact h.go (h.work.warm hw) (.of_warm h.work.calm hw) hplaced nofun fun o ho => by
        cases ho
        exact List.mem_map_of_mem (List.mem_of_getElem? hx)
    | none =>
      have hbehind := List.getElem?_eq_none_iff.mp hx
      obtain ⟨w', hr, hw⟩ := h.work.search_misses (hfile i) hlt hbehind
      rw [hp] at hr
      rw [hr] at hstep
      cases hstep
      refine h.go (h.work.warm hw) (.of_warm h.work.calm hw) trivial (fun seen hs => ?_) nofun
      cases hs
      unfold segLen at *
      omega

theorem Inv.append (h : Inv ws d n s cs) (hmissed : s.phase i = .missed s.appends) {s' : State ι}
    (hstep : step ws s (.append i) = some s') : ∃ cs', Inv ws d n s' cs' := by
  obtain ⟨hnone, hlast⟩ := h.missed i _ hmissed
  obtain ⟨init, t, rfl⟩ := h.work.exists_last
  obtain ⟨c, u, ho⟩ := (h.room hnone ⟨i, hlast⟩ t (by simp)).opens contMode
  obtain ⟨w', hr, hwork⟩ := h.work.append_grows (hfile i) ho (ws i).ppos
  simp only [step, hmissed, hr] at hstep
  cases hstep
  exact ⟨_, h.grown hnone hlast (hpos i).2 hwork⟩

/-- A call that appends behind what another has appended gets a segment that begins after its offset, or none. --/
theorem Inv.append_late (h : Inv ws d n s cs) {seen : Nat} (hmissed : s.phase i = .missed seen) (hlate : seen ≠ s.appends)
    {s' : State ι} (hstep : step ws s (.append i) = some s') : ¬(s'.phase i).Well (ws i).ppos := by
  obtain ⟨hzero, -⟩ := h.missed i _ hmissed
  have honce := h.once
  have hone : s.appends = 1 := by omega
  have hlength := h.length
  obtain ⟨init, t, rfl⟩ := h.work.exists_last
  have ht : (init ++ [t]).getLast? = some t := by simp
  cases ho : s.world.openPath (nextPath t) contMode with
  | error e =>
    obtain ⟨w', hr, -⟩ := h.work.append_fails (hfile i) ht ho (ws i).ppos
    simp only [step, hmissed, hr] at hstep
    cases hstep
    exact fun hwell => (congrArg (Phase.Well (ws i).ppos) (State.go_same s i _ w')).mp hwell
  | ok cu =>
    obtain ⟨w', hr, -⟩ := h.work.append_grows (hfile i) (c := cu.1) (u := cu.2) ho (ws i).ppos
    simp only [step, hmissed, hr] at hstep
    cases hstep
    intro hwell
    have hplaced : Placed (ws i).ppos (openedAt (appended t cu.1) oCreatRdwr (ws i).ppos) :=
      (congrArg (Phase.Well (ws i).ppos) (State.go_same s i _ w')).mp hwell
    have hstart : ((nextCd t).start : Int) ≤ (ws i).ppos := hplaced.contains.1
    rw [(h.work.last_eq ht).2.2, hlength, hone] at hstart
    have hend := (hpos i).2
    push_cast at hstart
    omega

end Steps

/-! ### Runs -/

/-- Every call of a run comes to the segment of its offset, and no segment is made that none needs, if and only if
    each call that appends does so before anybody else has appended since its search. --/
theorem good_iff_current (h : Workable w d cs) (hfile : ∀ i, (ws i).file.dentry = d)
    (hpos : ∀ i, 0 ≤ (ws i).ppos ∧ (ws i).ppos < segLen * (cs.length + 1))
    (hroom : (∃ i, segLen * cs.length ≤ (ws i).ppos) → ∀ t ∈ cs.getLast?, Room w (nextPath t)) {es : List (Event ι)}
    (hrun : (run (step ws) (begin w) es).isSome) :
    Always (step ws) (Good ws d cs.length) (fun _ _ => True) (begin w) es ↔ Each (step ws) Current (begin w) es := by
  have hbegin : Inv ws d cs.length (begin w) cs :=
    ⟨h, rfl, Nat.zero_le _, fun _ => hroom, nofun, fun _ => trivial, nofun, nofun⟩
  refine always_iff_each (I := fun s => ∃ cs', Inv ws d cs.length s cs') (fun s ⟨cs', hs⟩ => hs.good hpos) ?_ ?_
    ⟨cs, hbegin⟩ hrun
  · rintro s e ⟨cs', hs⟩ hq
    refine ⟨trivial, fun s' hstep => ?_⟩
    cases e with
    | search i => exact ⟨cs', hs.search hfile hpos hstep⟩
    | finish i => exact ⟨cs', hs.finish hfile hstep⟩
    | append i =>
      have hseen : (s.phase i).SeenAll s.appends := hq
      cases hph : s.phase i with
      | missed seen =>
        rw [hph] at hseen
        cases hseen
        exact hs.append hfile hpos hph hstep
      | start => simp [step, hph] at hstep
      | opened o => simp [step, hph] at hstep
      | ended o => simp [step, hph] at hstep
  · rintro s e s' ⟨cs', hs⟩ hstep - hgood
    cases e with
    | search i => trivial
    | finish i => trivial
    | append i =>
      show (s.phase i).SeenAll s.appends
      cases hph : s.phase i with
      | missed seen =>
        by_contra hlate
        exact hs.append_late hfile hpos hph hlate hstep (hgood.well i)
      | start => simp [step, hph] at hstep
      | opened o => simp [step, hph] at hstep
      | ended o => simp [step, hph] at hstep

/-- A call that nobody comes between is `chunkfs_write`. --/
theorem run_alone (hs : s.phase i = .start) {r : IoResult}
    (h : write (ws i).file (ws i).data (ws i).ppos s.world = .ok r w') :
    ∃ es s', run (step ws) s es = some s' ∧ s'.world = w' ∧ ∀ j, j ≠ i → s'.phase j = s.phase j := by
  unfold write at h
  simp only [bind_eq_ok] at h
  obtain ⟨r₁, w₁, hsearch, h⟩ := h
  have hfirst : step ws s (.search i) = some (s.go i (afterSearch s.appends r₁) w₁) := by
    simp only [step, hs, hsearch]
    rfl
  have hfinish : ∀ {t : State ι} {o : Opened} {r : IoResult}, t.phase i = .opened o →
      writeOpened (ws i).file (ws i).data o t.world = .ok r w' →
        step ws t (.finish i) = some (t.go i (.ended (some o)) w') := by
    intro t o r hph hwrite
    simp only [step, hph, hwrite]
    rfl
  cases r₁ with
  | ok o =>
    refine ⟨[.search i, .finish i], (s.go i (.opened o) w₁).go i (.ended (some o)) w', ?_, rfl, fun j hj => ?_⟩
    · have hlast := hfinish (t := s.go i (.opened o) w₁) (State.go_same ..) h
      simp only [run, hfirst, afterSearch, Option.bind_some, hlast]
    · rw [State.go_of_ne _ hj, State.go_of_ne _ hj]
  | error e =>
    by_cases he : e = .enoent
    · simp only [he, ↓reduceIte, bind_eq_ok] at h
      obtain ⟨r₂, w₂, hcreate, h⟩ := h
      have hsecond : step ws (s.go i (.missed s.appends) w₁) (.append i) =
          some { s.go i (afterAppend r₂) w₂ with appends := s.appends + 1 } := by
        simp only [step, State.go_same, State.go_world, hcreate]
        simp [State.after, State.go]
      cases r₂ with
      | ok o =>
        let grown : State ι := { s.go i (.opened o) w₂ with appends := s.appends + 1 }
        refine ⟨[.search i, .append i, .finish i], grown.go i (.ended (some o)) w', ?_, rfl, fun j hj => ?_⟩
        · simp only [run, hfirst, afterSearch, he, ↓reduceIte, Option.bind_some, hsecond]
          exact congrArg (·.bind (run (step ws) · [])) (hfinish (t := grown) (State.go_same s i _ w₂) h)
        · exact (State.go_of_ne grown hj _ w').trans (State.go_of_ne s hj _ w₂)
      | error e₂ =>
        cases h
        refine ⟨[.search i, .append i], { s.go i (.ended none) w' with appends := s.appends + 1 }, ?_, rfl, fun j hj => ?_⟩
        · simp only [run, hfirst, afterSearch, he, ↓reduceIte, Option.bind_some, hsecond, afterAppend]
        · exact State.go_of_ne s hj _ w'
    · simp only [he, ↓reduceIte] at h
      cases h
      refine ⟨[.search i], s.go i (.ended none) w', ?_, rfl, fun j hj => State.go_of_ne s hj _ w'⟩
      simp only [run, hfirst, afterSearch, he, ↓reduceIte, Option.bind_some]

end Runs

/-! ### Two calls -/

/-- Where the segment begins that is open for a call. --/
def Phase.start? : Phase → Option Nat
  | .opened o => some o.cont.cd.start
  | _ => none

/-- Two calls that append a byte to a file of one full segment. --/
def atSecond : Bool → Writer := fun _ => ⟨firstFile, [7], 40960⟩

/-- A file of one segment in a pool of three chunks. --/
def threeChunks : World := oneFile [1, 2, 3] quietEnv

theorem threeChunks_workable : ∃ c, Workable threeChunks firstDentry [c] ∧ ∀ t ∈ [c].getLast?, Room threeChunks (nextPath t) := by
  have hnew := oneFile_quiet (show ∀ k ∈ [1, 2, 3], 1 ≤ k ∧ k ≤ 10 by decide) (by decide)
  have hready := (hnew.holds (oneFile_undisturbed _)).toReady
  refine ⟨headOf firstDentry, ⟨hready.toFileChain, hready.sound, hready.calm, hready.fuel, fun c => ?_⟩, fun t ht => ?_⟩
  · unfold World.Readable threeChunks oneFile
    by_cases hc : c = firstIno <;> simp [hc]
  · obtain ⟨c, u, ho⟩ := hready.openPath_ok ht (by decide)
    exact .of_openPath ho

/-- One call after the other. --/
def inTurn : List (Event Bool) :=
  [.search false, .append false, .finish false, .search true, .finish true]

theorem atSecond_ppos : (0 : Int) ≤ 40960 ∧ (40960 : Int) < segLen * ((1 : Nat) + 1) := by decide

theorem good_in_turn : ∃ cs, cs.length = 1 ∧ Workable threeChunks firstDentry cs ∧
    Always (step atSecond) (Good atSecond firstDentry cs.length) (fun _ _ => True) (begin threeChunks) inTurn := by
  obtain ⟨c, hwork, hroom⟩ := threeChunks_workable
  exact ⟨[c], rfl, hwork, (good_iff_current hwork (fun _ => rfl) (fun _ => atSecond_ppos) (fun _ => hroom)
    (by decide +kernel)).mpr (by decide +kernel)⟩

/-- Both calls search before either appends: the second gets a third segment, which begins behind its offset. --/
theorem both_append : ∃ cs, cs.length = 1 ∧ Workable threeChunks firstDentry cs ∧
    (run (step atSecond) (begin threeChunks) [.search false, .search true, .append false, .append true]).isSome ∧
    ¬Always (step atSecond) (Good atSecond firstDentry cs.length) (fun _ _ => True) (begin threeChunks)
      [.search false, .search true, .append false, .append true] := by
  obtain ⟨c, hwork, -⟩ := threeChunks_workable
  have hends : ((run (step atSecond) (begin threeChunks)
      [.search false, .search true, .append false, .append true]).bind (fun s => (s.phase true).start?)) = some 81920 := by
    decide +kernel
  obtain ⟨s, hs, hstart⟩ := Option.bind_eq_some_iff.mp hends
  refine ⟨[c], rfl, hwork, Option.isSome_iff_exists.mpr ⟨s, hs⟩, fun ha => ?_⟩
  have hwell := (ha.last hs).well true
  cases hph : s.phase true with
  | opened o =>
    rw [hph] at hstart hwell
    have hlate : o.cont.cd.start = 81920 := Option.some.inj hstart
    have hbegins := hwell.contains.1
    rw [hlate] at hbegins
    exact absurd hbegins (by decide)
  | start => simp [hph, Phase.start?] at hstart
  | missed seen => simp [hph, Phase.start?] at hstart
  | ended o => simp [hph, Phase.start?] at hstart

end Chunkfs.Writers
