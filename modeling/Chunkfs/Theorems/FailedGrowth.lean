import Chunkfs.Theorems.Misread
import Chunkfs.Theorems.NewFile

/-! `chunkfs_create_continuation` with one failure: which failures it returns with the chain as it was. -/

namespace Chunkfs
open Exec

/-- The chunk in which the continuation after `t` is made. --/
def toChunk (t : Continuation) : Nat := (t.chunkId + 1) % 2 ^ 64

/-- The path of the continuation after `t`. --/
def toPath (t : Continuation) : List Char := contPath (toChunk t) t.chunkId (uinoToIno t.uino)

/-- The part of `chunkfs_create_continuation` that opens the new file. --/
def openNext (t : Continuation) : Kern (Except Errno ClientFile) := do
  getname
  filpOpen (toPath t) oCreatRdwr contMode

/-- The part after it. --/
def linkNext (t : Continuation) (ppos : Int) (newFile : ClientFile) : Kern (Except Errno Opened) := do
  dget newFile.inode
  let _ ← setContData newFile.inode (nextCd t)
  let _ ← setContData t.inode { t.cd with next := makeUino (toChunk t) newFile.inode.ino }
  match ← loadContinuation newFile.inode (toChunk t) with
  | .error _ => throw .oops
  | .ok cont =>
    let pos := copyDownFile ppos cont.cd.start
    return .ok { ppos := pos, file := { newFile with pos := pos }, cont := cont }

/-- What fails while a file grows: a call, the opening of the new file, or the chunk is not in the pool. --/
inductive Fault where
  | call (k : Nat) (e : Errno)
  | refused (e : Errno)
  | noChunk

namespace Fault

/-- The failure is the only one, where the file grows behind `t` and the walk to it makes `n` calls. Fifteen more are
    made: for the path, the open, eight attributes and what loads the new continuation. --/
def In (w : World) (t : Continuation) (n : Nat) : Fault → Prop
  | .call k e => k < n + 15 ∧ w.env.script = failsAt k e ∧ (∃ r, w.openPath (toPath t) contMode = .ok r) ∧
      toChunk t ∈ w.pool
  | .refused e => Calm w ∧ w.openPath (toPath t) contMode = .error e
  | .noChunk => Calm w ∧ (∃ r, w.openPath (toPath t) contMode = .ok r) ∧ toChunk t ∉ w.pool

/-- The calls of the walk after those for the head come in sevens: the buffer for the path, its lookup, the allocation
    and four attributes. The walk is followed by a buffer, the open, eight attributes and an allocation. --/
def Allocates (n k : Nat) : Prop :=
  k = 0 ∨ 5 ≤ k ∧ k < n ∧ ((k - 5) % 7 = 0 ∨ (k - 5) % 7 = 2) ∨ k = n ∨ k = n + 10

/-- The failure has the error `r`; an allocation that fails has no other than `-ENOMEM`. --/
def Gives (n : Nat) (r : Errno) : Fault → Prop
  | .call k e => (Allocates n k → r = .enomem) ∧ (¬Allocates n k → r = e)
  | .refused e => r = e
  | .noChunk => True

/-- The new file is not opened: what fails is the open itself, or in the walk an allocation of a continuation or an
    attribute, or the lookup of a path with the error it is taken for. --/
def Contained (n : Nat) : Fault → Prop
  | .call k e => k < n ∧ (k < 5 ∨ 2 ≤ (k - 5) % 7 ∨ (k - 5) % 7 = 1 ∧ e = .enoent) ∨ k = n + 1
  | .refused _ => True
  | .noChunk => False

end Fault

/-- The function returns the error of the failure, and then the walk gives the chain as it was. --/
def FailsCleanly (w : World) (file : File) (p : Int) (cs : List Continuation) (f : Fault) (n : Nat) : Prop :=
  ∃ e w', createContinuation file p w = .ok (.error e) w' ∧ f.Gives n e ∧
    ∃ w'', walkConts w.env.fuel file.dentry none w' = .ok (.ok cs) w''

section Parts
variable {w w' w₁ : World} {d : Dentry} {vn : Vnode} {cs : List Continuation} {t : Continuation} {file : File} {p : Int}
  {e : Errno}

/-- Behind the walk the new file is opened, and then it is linked. --/
theorem createContinuation_after (h : lastCont w.env.fuel file.dentry none w = .ok (.ok (some t)) w₁) :
    createContinuation file p w = (openNext t >>= fun r =>
      match r with
      | .error e => do
        putContinuation t
        return .error e
      | .ok newFile => linkNext t p newFile) w₁ := by
  unfold createContinuation
  rw [bind_ok (get_apply w), bind_ok h]
  unfold openNext
  dsimp only
  rw [bind_apply, bind_apply, bind_apply]
  cases getname w₁ <;> rfl

/-- Once the new file is open, no error is returned any more. --/
theorem linkNext_no_error {f : ClientFile} : linkNext t p f w ≠ .ok (.error e) w' := by
  intro h
  unfold linkNext at h
  obtain ⟨-, w₁, -, h⟩ := bind_eq_ok.mp h
  obtain ⟨-, w₂, -, h⟩ := bind_eq_ok.mp h
  obtain ⟨-, w₃, -, h⟩ := bind_eq_ok.mp h
  obtain ⟨r, w₄, -, h⟩ := bind_eq_ok.mp h
  cases r with
  | error _ => cases h
  | ok cont => cases h

theorem firstStop_add_eq_none {m n : Nat} {s : List Outcome} (h : firstStop (m + n) s = none) :
    firstStop m s = none ∧ firstStop n (s.drop m) = none := by
  rw [firstStop_add] at h
  split at h
  · cases h
  · rename_i hm
    exact ⟨hm, Option.map_eq_none_iff.mp h⟩

theorem firstStop_failsAt (e : Errno) : ∀ n k, firstStop n (failsAt k e) = if k < n then some (k, some e) else none
  | 0, k => rfl
  | n + 1, 0 => rfl
  | n + 1, k + 1 => by
    show (firstStop n (failsAt k e)).map _ = _
    rw [firstStop_failsAt e n k]
    by_cases hk : k < n
    · rw [if_pos hk, if_pos (Nat.succ_lt_succ hk)]
      rfl
    · rw [if_neg hk, if_neg (by omega)]
      rfl

theorem drop_failsAt (e : Errno) : ∀ {n k : Nat}, n ≤ k → (failsAt k e).drop n = failsAt (k - n) e
  | 0, k, _ => rfl
  | n + 1, k + 1, h => by
    show (failsAt k e).drop n = _
    rw [drop_failsAt e (Nat.le_of_succ_le_succ h), Nat.add_sub_add_right]

theorem drop_failsAt_succ (k : Nat) (e : Errno) : (failsAt k e).drop (k + 1) = [] :=
  List.drop_eq_nil_of_le (by simp [failsAt])

theorem ask_works (h : firstStop 1 w.env.script = none) : ∃ w', ask w = .ok none w' ∧ Used 1 w w' := by
  have hasks := ask_asks w
  unfold Asks at hasks
  rw [h] at hasks
  obtain ⟨-, w', hr, hu, rfl⟩ := hasks
  exact ⟨w', hr, hu⟩

theorem ask_fails (h : firstStop 1 w.env.script = some (0, some e)) : ∃ w', ask w = .ok (some e) w' ∧ Used 1 w w' := by
  have hasks := ask_asks w
  unfold Asks at hasks
  rw [h] at hasks
  exact hasks

theorem getname_works (h : firstStop 1 w.env.script = none) : ∃ w', getname w = .ok () w' ∧ Used 1 w w' := by
  obtain ⟨w', hr, hu⟩ := ask_works h
  exact ⟨w', bind_ok hr, hu⟩

theorem Warm.opens (hw : Warm w w') {path : List Char} {mode : Nat} (h : ∃ r, w.openPath path mode = .ok r) :
    ∃ r, w'.openPath path mode = .ok r := by
  obtain ⟨⟨c, u⟩, ho⟩ := h
  obtain ⟨u', ho', -⟩ := hw.openPath_ok ho
  exact ⟨_, ho'⟩

theorem openNext_oops (h : firstStop 1 w.env.script = some (0, some e)) (t : Continuation) :
    ∃ w', openNext t w = .error .oops w' := by
  obtain ⟨w', hr, -⟩ := ask_fails h
  exact ⟨w', bind_error (bind_ok hr)⟩

/-- The open fails. --/
theorem openNext_fails (hs : w.env.script = failsAt 1 e) (t : Continuation) :
    ∃ w', openNext t w = .ok (.error e) w' ∧ Used 2 w w' := by
  obtain ⟨w₁, hr₁, hu₁⟩ := getname_works (w := w) (by rw [hs]; rfl)
  obtain ⟨w₂, hr₂, hu₂⟩ := ask_fails (w := w₁) (e := e) (by rw [hu₁.rest, hs]; rfl)
  exact ⟨w₂, (bind_ok hr₁).trans (bind_ok hr₂), hu₁.trans hu₂⟩

/-- Both calls work: what the open gives is up to the client file systems. --/
theorem openNext_works (h : firstStop 2 w.env.script = none) (t : Continuation) :
    (∀ e, w.openPath (toPath t) contMode = .error e → ∃ w', openNext t w = .ok (.error e) w' ∧ Used 2 w w') ∧
    ((∃ r, w.openPath (toPath t) contMode = .ok r) → ∃ f w', openNext t w = .ok (.ok f) w') := by
  obtain ⟨h₁, h₂⟩ := firstStop_add_eq_none (m := 1) (n := 1) h
  obtain ⟨w₁, hr₁, hu₁⟩ := getname_works h₁
  rw [← hu₁.rest] at h₂
  obtain ⟨w₂, hr₂, hu₂⟩ := ask_works h₂
  have hu := hu₁.trans hu₂
  unfold openNext filpOpen
  rw [bind_ok hr₁, bind_ok hr₂]
  dsimp only
  rw [bind_ok (get_apply w₂)]
  rcases hu.openPath (toPath t) contMode with ⟨e', he, he'⟩ | ⟨c, u, u', hu₁, hu₂, -⟩
  · rw [he, he']
    refine ⟨fun e heq => ?_, nofun⟩
    cases heq
    exact ⟨w₂, rfl, hu⟩
  · rw [hu₁, hu₂]
    exact ⟨nofun, fun _ => ⟨_, _, rfl⟩⟩

end Parts

/-! ### One failure -/

section Fault
variable {w : World} {vn : Vnode} {cs : List Continuation} {t : Continuation} {file : File} {p : Int} {f : Fault}

/-- In the walk the failures that are contained are those whose error comes out. --/
theorem walkErr_gives {n k : Nat} {e : Errno} (hk : k < n) :
    (∃ r, walkErr none k e = .ok r ∧ (Fault.call k e).Gives n r) ↔ (Fault.call k e).Contained n := by
  have hn : k ≠ n + 1 ∧ k ≠ n ∧ k ≠ n + 10 := by omega
  unfold Fault.Gives Fault.Contained Fault.Allocates
  by_cases hhead : k < 5
  · have hplace : walkErr none k e = .ok (loadErr k e) := if_pos hhead
    rw [hplace]
    refine iff_of_true ⟨_, rfl, fun h => if_pos (by omega), fun h => if_neg (by omega)⟩ (by omega)
  · have hplace : walkErr none k e = nextErr ((k - 5) % 7) e := if_neg hhead
    rw [hplace]
    obtain ⟨m, hm⟩ : ∃ m, m = (k - 5) % 7 := ⟨_, rfl⟩
    rw [← hm]
    match m with
    | 0 => exact iff_of_false (by simp [nextErr]) (by omega)
    | 1 =>
      constructor
      · rintro ⟨r, hr, -, hgives⟩
        cases hr
        exact Or.inl ⟨hk, Or.inr (Or.inr ⟨hm.symm, (hgives (by omega)).symm⟩)⟩
      · rintro (⟨-, h | h | ⟨-, rfl⟩⟩ | h)
        · omega
        · omega
        · exact ⟨_, rfl, by omega, fun _ => rfl⟩
        · omega
    | m + 2 => exact iff_of_true ⟨_, rfl, fun h => if_pos (by omega), fun h => if_neg (by omega)⟩ (by omega)

/-- Where an error has been returned after reading alone, the walk gives the chain as it was. --/
theorem failsCleanly_of_used (h : Traced w file.dentry vn cs) (hf : cs.length < w.env.fuel) {e : Errno} {n m : Nat}
    {w' : World} (hr : createContinuation file p w = .ok (.error e) w') (hu : Used m w w')
    (hcalm : w.env.script.drop m = []) (hgives : f.Gives n e) : FailsCleanly w file p cs f n := by
  have hc : Calm w' := hu.rest.trans hcalm
  obtain ⟨w'', hwalk, -⟩ := (walkConts_reads ((h.warm hu.toWarm).follows hc.honest) hf w' (Warm.refl w')).calm hc
  exact ⟨e, w', hr, hgives, w'', hwalk⟩

/-- A walk that fails is the end of the growth. --/
theorem createContinuation_of_walk {w' : World} (file : File) (p : Int) :
    (∀ {e : Errno}, lastCont w.env.fuel file.dentry none w = .ok (.error e) w' →
      createContinuation file p w = .ok (.error e) w') ∧
    ∀ {s : Stop}, lastCont w.env.fuel file.dentry none w = .error s w' → createContinuation file p w = .error s w' := by
  unfold createContinuation
  rw [bind_ok (get_apply w)]
  exact ⟨fun h => bind_ok h, fun h => bind_error h⟩

/-- Where the new file is not opened, the error of the open is returned. --/
theorem createContinuation_of_refused {w₁ : World} {n : Nat} {e : Errno}
    (hlast : lastCont w.env.fuel file.dentry none w = .ok (.ok (some t)) w₁) (hu : Used n w w₁)
    (hopen : ∃ w', openNext t w₁ = .ok (.error e) w' ∧ Used 2 w₁ w') :
    ∃ w', createContinuation file p w = .ok (.error e) w' ∧ Used (n + 2) w w' := by
  obtain ⟨w₂, hr₂, hu₂⟩ := hopen
  obtain ⟨w₃, hr₃, hu₃⟩ := putContinuation_used w₂ t
  refine ⟨w₃, ?_, (hu.trans hu₂).trans hu₃⟩
  rw [createContinuation_after hlast, bind_ok hr₂]
  exact bind_ok hr₃

theorem not_failsCleanly_of_opened {w₁ : World} {n : Nat}
    (hlast : lastCont w.env.fuel file.dentry none w = .ok (.ok (some t)) w₁)
    (hopen : ∃ f w', openNext t w₁ = .ok (.ok f) w') : ¬FailsCleanly w file p cs f n := by
  rintro ⟨e, w', hr, -⟩
  obtain ⟨newFile, w₂, hr₂⟩ := hopen
  rw [createContinuation_after hlast, bind_ok hr₂] at hr
  exact linkNext_no_error hr

/-- A single failure in the growth of a file is returned and leaves the chain as it was if and only if it comes before
    the new file is open, is no missing buffer for a path, and is no failed lookup of a path unless with `-ENOENT`. --/
theorem fails_cleanly_iff (h : Traced w file.dentry vn cs) (hf : cs.length < w.env.fuel) (ht : cs.getLast? = some t)
    (hfault : f.In w t (walkCost none cs)) (p : Int) :
    FailsCleanly w file p cs f (walkCost none cs) ↔ f.Contained (walkCost none cs) := by
  have hasks := lastCont_asks h.visits hf ht w (Warm.refl w)
  obtain ⟨n, hn⟩ : ∃ n, n = walkCost none cs := ⟨_, rfl⟩
  rw [← hn] at hasks hfault ⊢
  unfold Asks at hasks
  have hquiet : Calm w → firstStop n w.env.script = none := fun hc => by
    rw [hc]
    cases n <;> rfl
  cases f with
  | call k e =>
    obtain ⟨-, hs, ho, -⟩ := hfault
    rw [hs, firstStop_failsAt] at hasks
    by_cases hkn : k < n
    · rw [if_pos hkn] at hasks
      rw [← walkErr_gives hkn]
      dsimp only at hasks
      unfold EndsIn at hasks
      cases herr : walkErr none k e with
      | error s =>
        rw [herr] at hasks
        obtain ⟨w', hr⟩ := hasks
        have hcreate := (createContinuation_of_walk file p).2 hr
        refine iff_of_false ?_ nofun
        rintro ⟨r, w'', hr', -⟩
        cases hcreate.symm.trans hr'
      | ok r =>
        rw [herr] at hasks
        obtain ⟨w', hr, hu⟩ := hasks
        have hcreate := (createContinuation_of_walk file p).1 hr
        constructor
        · rintro ⟨r', w'', hr', hgives, -⟩
          cases hcreate.symm.trans hr'
          exact ⟨r, rfl, hgives⟩
        · rintro ⟨r', heq, hgives⟩
          cases heq
          exact failsCleanly_of_used h hf hcreate hu (by rw [hs, drop_failsAt_succ]) hgives
    · rw [if_neg hkn] at hasks
      obtain ⟨-, w₁, hr₁, hu₁, rfl⟩ := hasks
      have hs₁ : w₁.env.script = failsAt (k - n) e := by rw [hu₁.rest, hs, drop_failsAt e (by omega)]
      unfold Fault.Contained
      by_cases hkn₁ : k = n + 1
      · subst hkn₁
        have hs₂ : w₁.env.script = failsAt 1 e := by rw [hs₁, Nat.add_sub_cancel_left]
        obtain ⟨w', hr, hu⟩ := createContinuation_of_refused (p := p) hr₁ hu₁ (openNext_fails hs₂ t)
        refine iff_of_true (failsCleanly_of_used h hf hr hu (by rw [hs, drop_failsAt_succ]) ?_) (Or.inr rfl)
        unfold Fault.Gives Fault.Allocates
        exact ⟨by omega, fun _ => rfl⟩
      · refine iff_of_false ?_ (by omega)
        by_cases hkn₂ : k = n
        · subst hkn₂
          obtain ⟨w₂, hr₂⟩ := openNext_oops (w := w₁) (e := e) (by rw [hs₁, Nat.sub_self]; rfl) t
          rintro ⟨r, w', hr, -⟩
          rw [createContinuation_after hr₁, bind_error hr₂] at hr
          cases hr
        · have hworks : firstStop 2 w₁.env.script = none := by
            rw [hs₁, firstStop_failsAt, if_neg (by omega)]
          exact not_failsCleanly_of_opened hr₁ ((openNext_works hworks t).2 (hu₁.toWarm.opens ho))
  | refused e =>
    obtain ⟨hc, ho⟩ := hfault
    rw [hquiet hc] at hasks
    obtain ⟨-, w₁, hr₁, hu₁, rfl⟩ := hasks
    have hworks : firstStop 2 w₁.env.script = none := by
      rw [hc.warm hu₁.toWarm]
      rfl
    obtain ⟨w', hr, hu⟩ := createContinuation_of_refused (p := p) hr₁ hu₁
      ((openNext_works hworks t).1 e (hu₁.openPath_error ho))
    refine iff_of_true (failsCleanly_of_used h hf hr hu ?_ rfl) trivial
    rw [hc]
    exact List.drop_nil
  | noChunk =>
    obtain ⟨hc, ho, -⟩ := hfault
    rw [hquiet hc] at hasks
    obtain ⟨-, w₁, hr₁, hu₁, rfl⟩ := hasks
    have hworks : firstStop 2 w₁.env.script = none := by
      rw [hc.warm hu₁.toWarm]
      rfl
    exact iff_of_false (not_failsCleanly_of_opened hr₁ ((openNext_works hworks t).2 (hu₁.toWarm.opens ho))) id

end Fault

/-! ### A file of one segment -/

/-- Where a call was cut short. --/
def stopOf {α : Type} : EStateM.Result Stop World α → Option Stop
  | .ok _ _ => none
  | .error s _ => some s

theorem oneFile_fault {k : Nat} {e : Errno} (hk : k < 20) :
    (∃ vn, Traced ((oneFile [1, 2] quietEnv).scripted (failsAt k e)) firstFile.dentry vn [headOf firstDentry]) ∧
    (Fault.call k e).In ((oneFile [1, 2] quietEnv).scripted (failsAt k e)) (headOf firstDentry)
      (walkCost none [headOf firstDentry]) := by
  have hready := ((oneFile_quiet (show ∀ k ∈ [1, 2], 1 ≤ k ∧ k ≤ 10 by decide) (by decide)).holds (oneFile_undisturbed _)).toReady
  obtain ⟨vn, htraced⟩ := hready.toChain.walkable.traced
  obtain ⟨c, u, ho⟩ := hready.openPath_ok rfl (by decide)
  have hpath : toPath (headOf firstDentry) = nextPath (headOf firstDentry) := by decide +kernel
  have hpool : toChunk (headOf firstDentry) ∈ [1, 2] := by decide
  have hwarm : Warm ((oneFile [1, 2] quietEnv).scripted (failsAt k e)) (oneFile [1, 2] quietEnv) :=
    ⟨rfl, rfl, rfl, rfl, List.nil_suffix, rfl, fun _ => Or.inl rfl⟩
  refine ⟨⟨vn, htraced.scripted _⟩, hk, rfl, ?_, hpool⟩
  rw [hpath]
  rcases hwarm.openPath (nextPath (headOf firstDentry)) contMode with ⟨e', -, he⟩ | ⟨c', u', -, hu, -, -⟩
  · cases ho.symm.trans he
  · exact ⟨_, hu⟩

/-- The new file cannot be opened for want of space. --/
theorem fails_cleanly_oneFile :
    FailsCleanly ((oneFile [1, 2] quietEnv).scripted (failsAt 6 .enospc)) firstFile 40960 [headOf firstDentry]
      (.call 6 .enospc) 5 := by
  obtain ⟨⟨vn, htraced⟩, hfault⟩ := oneFile_fault (k := 6) (e := .enospc) (by decide)
  exact (fails_cleanly_iff htraced (by decide) rfl hfault 40960).mpr (Or.inr rfl)

/-- The first attribute of the new file cannot be stored for want of space: the continuation that is then not loaded is
    read. --/
theorem not_fails_cleanly_oneFile :
    stopOf (createContinuation firstFile 40960 ((oneFile [1, 2] quietEnv).scripted (failsAt 7 .enospc))) = some .oops ∧
    (Fault.call 7 .enospc).In ((oneFile [1, 2] quietEnv).scripted (failsAt 7 .enospc)) (headOf firstDentry) 5 ∧
    ¬FailsCleanly ((oneFile [1, 2] quietEnv).scripted (failsAt 7 .enospc)) firstFile 40960 [headOf firstDentry]
      (.call 7 .enospc) 5 := by
  have hstop : stopOf (createContinuation firstFile 40960 ((oneFile [1, 2] quietEnv).scripted (failsAt 7 .enospc))) =
      some .oops := by decide +kernel
  refine ⟨hstop, (oneFile_fault (by decide)).2, ?_⟩
  rintro ⟨e, w', hr, -⟩
  rw [hr] at hstop
  cases hstop

end Chunkfs
