import Chunkfs.Theorems.Walk

/-! Calls that fail. A program that reads asks the environment a number of times; `Asks` says what it gives when all
    these calls work, and how it ends when one of them is the first that does not. -/

namespace Chunkfs
open Exec

/-- The world with other answers to come. --/
def World.scripted (w : World) (script : List Outcome) : World := { w with env := { w.env with script := script } }

/-- The first of the next `n` answers that is not `works`: its place, and its error unless the machine stops. --/
def firstStop : Nat → List Outcome → Option (Nat × Option Errno)
  | 0, _ => none
  | _ + 1, [] => none
  | n + 1, .works :: rest => (firstStop n rest).map fun r => (r.1 + 1, r.2)
  | _ + 1, .fails e :: _ => some (0, some e)
  | _ + 1, .halts :: _ => some (0, none)

theorem firstStop_lt : ∀ {n : Nat} {s : List Outcome} {k : Nat} {e : Option Errno}, firstStop n s = some (k, e) → k < n
  | n + 1, .works :: rest, k, e, h => by
    obtain ⟨⟨k', e'⟩, h', heq⟩ := Option.map_eq_some_iff.mp h
    cases heq
    exact Nat.succ_lt_succ (firstStop_lt h')
  | n + 1, .fails _ :: _, k, e, h => by
    cases h
    exact Nat.succ_pos n
  | n + 1, .halts :: _, k, e, h => by
    cases h
    exact Nat.succ_pos n

/-- Among `m + n` answers the first stop is among the first `m`, or it is the first one of the rest. --/
theorem firstStop_add (n : Nat) : ∀ (m : Nat) (s : List Outcome), firstStop (m + n) s =
    match firstStop m s with
    | some r => some r
    | none => (firstStop n (s.drop m)).map fun r => (m + r.1, r.2)
  | 0, s => by simp [firstStop]
  | m + 1, [] => by
    cases n <;> simp [firstStop, Nat.add_right_comm m 1]
  | m + 1, .works :: rest => by
    rw [Nat.add_right_comm]
    simp only [firstStop, List.drop_succ_cons, firstStop_add n m rest]
    cases firstStop m rest with
    | some r => rfl
    | none =>
      simp only [Option.map_map, Option.map_none]
      congr 1
      funext r
      simp [Nat.add_right_comm]
  | m + 1, .fails e :: rest => by
    rw [Nat.add_right_comm]
    rfl
  | m + 1, .halts :: rest => by
    rw [Nat.add_right_comm]
    rfl

/-- `w'` is a warmer world in which the next `n` answers have been used up. --/
structure Used (n : Nat) (w w' : World) : Prop extends Warm w w' where
  rest : w'.env.script = w.env.script.drop n
  fsyncs : w'.fsyncs = w.fsyncs

theorem Used.refl (w : World) : Used 0 w w := ⟨Warm.refl w, rfl, rfl⟩

theorem Used.trans {m n : Nat} {w w' w'' : World} (h : Used m w w') (h' : Used n w' w'') : Used (m + n) w w'' where
  toWarm := h.toWarm.trans h'.toWarm
  rest := by rw [h'.rest, h.rest, List.drop_drop]
  fsyncs := h'.fsyncs.trans h.fsyncs

section Asks
variable {α β : Type} {w : World}

/-- The run of `m` returns after `n` answers, or is cut short. --/
def EndsIn (r : Except Stop α) (m : Kern α) (w : World) (n : Nat) : Prop :=
  match r with
  | .ok a => ∃ w', m w = .ok a w' ∧ Used n w w'
  | .error s => ∃ w', m w = .error s w'

/-- From `w` the program asks `n` times. When all answers are `works` it returns with `Q`; when the first that is not
    is the error `e` at place `k` it ends with `bad k e`. --/
def Asks (m : Kern α) (w : World) (n : Nat) (bad : Nat → Errno → Except Stop α) (Q : α → World → Prop) : Prop :=
  match firstStop n w.env.script with
  | none => ∃ a w', m w = .ok a w' ∧ Used n w w' ∧ Q a w'
  | some (k, some e) => EndsIn (bad k e) m w (k + 1)
  | some (_, none) => ∃ w', m w = .error .halt w'

/-- What follows the result of a failure, from `w` on. --/
def After (r : Except Stop α) (f : α → Kern β) (w : World) (r' : Except Stop β) : Prop :=
  match r with
  | .ok a => EndsIn r' (f a) w 0
  | .error s => r' = .error s

section EndsIn
variable {m : Kern α} {f : α → Kern β} {r : Except Stop α} {r' : Except Stop β} {a : α} {n k : Nat} {w₁ : World}

theorem EndsIn.bind (h : EndsIn r m w n) (hafter : ∀ w', After r f w' r') : EndsIn r' (m >>= f) w n := by
  unfold EndsIn at h
  cases r with
  | error s =>
    obtain ⟨w', hr⟩ := h
    have heq : r' = .error s := hafter w'
    rw [heq]
    exact ⟨w', bind_error hr⟩
  | ok a =>
    obtain ⟨w', hr, hu⟩ := h
    have hrest : EndsIn r' (f a) w' 0 := hafter w'
    unfold EndsIn at hrest ⊢
    cases r' with
    | error s =>
      obtain ⟨w'', hr'⟩ := hrest
      exact ⟨w'', (bind_ok hr).trans hr'⟩
    | ok b =>
      obtain ⟨w'', hr', hu'⟩ := hrest
      exact ⟨w'', (bind_ok hr).trans hr', hu.trans hu'⟩

theorem EndsIn.of_bind (hr : m w = .ok a w₁) (hu : Used n w w₁) (h : EndsIn r' (f a) w₁ k) :
    EndsIn r' (m >>= f) w (n + k) := by
  unfold EndsIn at h ⊢
  cases r' with
  | error s =>
    obtain ⟨w', hr'⟩ := h
    exact ⟨w', (bind_ok hr).trans hr'⟩
  | ok b =>
    obtain ⟨w', hr', hu'⟩ := h
    exact ⟨w', (bind_ok hr).trans hr', hu.trans hu'⟩

theorem EndsIn.pure (a : α) (w : World) : EndsIn (.ok a) (Pure.pure a) w 0 := ⟨w, rfl, Used.refl w⟩

end EndsIn

namespace Asks
variable {m : Kern α} {f : α → Kern β} {n n₁ : Nat} {bad bad₁ : Nat → Errno → Except Stop α}
  {bad' : Nat → Errno → Except Stop β} {Q Q₁ : α → World → Prop} {Q₂ : β → World → Prop}

theorem pure {a : α} (h : Q a w) : Asks (Pure.pure a) w 0 bad Q := ⟨a, w, rfl, Used.refl w, h⟩

theorem get_bind {f : World → Kern α} (h : Asks (f w) w n bad Q) : Asks (get >>= f) w n bad Q := h

/-- The rule of sequences: the first part asks first. --/
theorem bind (hm : Asks m w n₁ bad₁ Q₁) (n₂ : Nat) (bad₂ : Nat → Errno → Except Stop β)
    (hf : ∀ a w', Used n₁ w w' → Q₁ a w' → Asks (f a) w' n₂ bad₂ Q₂)
    (hfail : ∀ k e w', k < n₁ → After (bad₁ k e) f w' (bad' k e)) (hlater : ∀ k e, bad' (n₁ + k) e = bad₂ k e) :
    Asks (m >>= f) w (n₁ + n₂) bad' Q₂ := by
  unfold Asks at hm
  unfold Asks
  rw [firstStop_add]
  cases hfirst : firstStop n₁ w.env.script with
  | some stop =>
    obtain ⟨k, e⟩ := stop
    rw [hfirst] at hm
    cases e with
    | none =>
      obtain ⟨w', hr⟩ := hm
      exact ⟨w', bind_error hr⟩
    | some e => exact EndsIn.bind hm fun w' => hfail k e w' (firstStop_lt hfirst)
  | none =>
    rw [hfirst] at hm
    obtain ⟨a, w₁, hr₁, hu₁, hq₁⟩ := hm
    have hrest := hf a w₁ hu₁ hq₁
    unfold Asks at hrest
    rw [hu₁.rest] at hrest
    cases hsecond : firstStop n₂ (w.env.script.drop n₁) with
    | none =>
      rw [hsecond] at hrest
      obtain ⟨b, w₂, hr₂, hu₂, hq₂⟩ := hrest
      exact ⟨b, w₂, (bind_ok hr₁).trans hr₂, hu₁.trans hu₂, hq₂⟩
    | some stop =>
      obtain ⟨k, e⟩ := stop
      rw [hsecond] at hrest
      cases e with
      | none =>
        obtain ⟨w₂, hr₂⟩ := hrest
        exact ⟨w₂, (bind_ok hr₁).trans hr₂⟩
      | some e =>
        dsimp only [Option.map_some] at hrest ⊢
        rw [hlater]
        exact EndsIn.of_bind (k := k + 1) hr₁ hu₁ hrest

/-- A first part that asks nothing. --/
theorem after {a : α} {w₁ : World} (hr : m w = .ok a w₁) (hu : Used 0 w w₁) (h : Asks (f a) w₁ n bad' Q₂) : Asks (m >>= f) w n bad' Q₂ := by
  have hm : Asks m w 0 (fun _ _ => .error .halt) fun a' w' => a' = a ∧ w' = w₁ := ⟨a, w₁, hr, hu, rfl, rfl⟩
  have hrule : Asks (m >>= f) w (0 + n) bad' Q₂ := hm.bind n bad' (fun a' w' _ hq => hq.1 ▸ hq.2 ▸ h) nofun
    fun k e => congrArg (bad' · e) (Nat.zero_add k)
  rwa [Nat.zero_add] at hrule

end Asks

end Asks

/-! ### Calls -/

section Calls
variable {w : World} {c : ClientIno} {cd : ContData}

theorem ask_asks (w : World) : Asks ask w 1 (fun _ e => .ok (some e)) fun r _ => r = none := by
  unfold Asks
  have used : ∀ {o : Outcome} {rest : List Outcome}, w.env.script = o :: rest →
      Used 1 w { w with env := { w.env with script := rest } } := by
    intro o rest hs
    refine ⟨⟨rfl, rfl, rfl, rfl, ?_, rfl, fun _ => Or.inl rfl⟩, ?_, rfl⟩
    · rw [hs]
      exact List.suffix_cons ..
    · rw [hs]
      rfl
  cases hs : w.env.script with
  | nil => exact ⟨none, w, by simp [ask, hs], ⟨Warm.refl w, by rw [hs]; rfl, rfl⟩, rfl⟩
  | cons o rest =>
    cases o with
    | works => exact ⟨none, _, by simp [ask, hs], used hs, rfl⟩
    | fails e => exact ⟨_, by simp [ask, hs], used hs⟩
    | halts => exact ⟨w, by simp [ask, hs]⟩

theorem used_refs (w : World) (f : Refs) : Used 0 w { w with refs := f } :=
  ⟨⟨rfl, rfl, rfl, rfl, List.suffix_refl _, rfl, fun _ => Or.inl rfl⟩, rfl, rfl⟩

theorem dget_used (w : World) (c : ClientIno) : ∃ w', dget c w = .ok () w' ∧ Used 0 w w' := ⟨_, rfl, used_refs w _⟩

theorem dput_used (w : World) (c : ClientIno) : ∃ w', dput c w = .ok () w' ∧ Used 0 w w' := ⟨_, rfl, used_refs w _⟩

theorem putContinuation_used (w : World) (cont : Continuation) :
    ∃ w', putContinuation cont w = .ok () w' ∧ Used 0 w w' := ⟨_, rfl, used_refs w _⟩

theorem kfreeCont_ends {α : Type} (a : α) (w : World) : EndsIn (.ok a) (kfreeCont >>= fun _ => pure a) w 0 :=
  EndsIn.of_bind (m := kfreeCont) (f := fun _ => pure a) rfl (used_refs w _) (.pure a _)

theorem vnodeAt_used {v : Nat} {vn : Vnode} (h : w.vnode v = some vn) : vnodeAt v w = .ok vn w := by
  unfold vnodeAt
  rw [bind_ok (get_apply w), h]
  rfl

theorem kzallocCont_asks (w : World) : Asks kzallocCont w 1 (fun _ _ => .ok false) fun r _ => r = true := by
  refine (ask_asks w).bind 0 (fun _ _ => .ok false) ?_ ?_ fun _ _ => rfl
  · rintro r w' - rfl
    exact .after rfl (used_refs w' _) (.pure rfl)
  · exact fun k e w' _ => .pure false w'

theorem getname_asks (w : World) : Asks getname w 1 (fun _ _ => .error .oops) fun _ _ => True := by
  refine (ask_asks w).bind 0 (fun _ _ => .error .oops) ?_ ?_ fun _ _ => rfl
  · rintro r w' - rfl
    exact .pure trivial
  · exact fun k e w' _ => ⟨w', rfl⟩

/-- A path that leads to a client inode. --/
theorem kernPath_asks {path : List Char} (hp : w.disk.path path = some c) (hc : w.Readable c) :
    Asks (kernPath path) w 1 (fun _ e => .ok (.error e)) fun r w' => r = .ok c ∧ w'.icache c = .live := by
  refine (ask_asks w).bind 0 (fun _ e => .ok (.error e)) ?_ ?_ fun _ _ => rfl
  · rintro r w₁ h₁ rfl
    refine .get_bind ?_
    have hp₁ : w₁.disk.path path = some c := by rw [h₁.disk]; exact hp
    rw [hp₁]
    have hread : Used 0 w₁ (w₁.readIn c) := ⟨readIn_warm c, by unfold World.readIn; split <;> rfl,
      by unfold World.readIn; split <;> rfl⟩
    obtain ⟨w₃, hr₃, hu₃⟩ := dget_used (w₁.readIn c) c
    exact .after rfl hread (.after hr₃ hu₃ (.pure ⟨rfl, hu₃.live (readIn_live (h₁.readable hc))⟩))
  · exact fun k e w' _ => .pure _ w'

/-! ### Continuation data -/

theorem getSetContData_asks {a : ContAttr} (hd : w.contData? c = some cd) :
    Asks (getSetContData c a 0 0) w 1 (fun _ e => .ok (.error e)) fun r _ => r = .ok (cd.value a) := by
  obtain ⟨i, hi, ha⟩ : ∃ i, w.inode? c = some i ∧ i.attr? a = some (cd.value a) := by
    unfold World.contData? at hd
    cases hi : w.inode? c with
    | none => rw [hi] at hd; cases hd
    | some i =>
      rw [hi] at hd
      exact ⟨i, rfl, ClientInode.contData?_eq_some.mp hd a⟩
  unfold ClientInode.attr? at ha
  cases hx : i.xattr a with
  | none => rw [hx] at ha; cases ha
  | some text =>
    simp only [hx, Option.ite_none_right_eq_some, Option.some.injEq] at ha
    have hget : Asks (genericGetxattr c a) w 1 (fun _ e => .ok (.error e)) fun r _ => r = .ok text := by
      refine (ask_asks w).bind 0 (fun _ e => .ok (.error e)) ?_ ?_ fun _ _ => rfl
      · rintro r w₁ h₁ rfl
        refine .get_bind ?_
        simp only [h₁.inode? hi, hx, if_pos ha.1]
        exact .pure rfl
      · exact fun k e w' _ => .pure _ w'
    unfold getSetContData
    rw [if_pos rfl]
    refine hget.bind 0 (fun _ e => .ok (.error e)) ?_ ?_ fun _ _ => rfl
    · rintro r w₁ - rfl
      exact .pure (congrArg Except.ok ha.2)
    · exact fun k e w' _ => .pure _ w'

theorem getContData_asks (hd : w.contData? c = some cd) :
    Asks (getContData c) w 4 (fun _ e => .ok (.error e)) fun r _ => r = .ok cd := by
  have hread : ∀ {w' : World} (a : ContAttr), Warm w w' →
      Asks (getSetContData c a 0 0) w' 1 (fun _ e => .ok (.error e)) fun r _ => r = .ok (cd.value a) := fun a hw =>
    getSetContData_asks (hw.contData? hd)
  unfold getContData
  refine (hread .next (Warm.refl w)).bind 3 (fun _ e => .ok (.error e)) ?_ (fun k e w' _ => .pure _ w')
    fun _ _ => rfl
  rintro r w₁ h₁ rfl
  refine (hread .prev h₁.toWarm).bind 2 (fun _ e => .ok (.error e)) ?_ (fun k e w' _ => .pure _ w')
    fun _ _ => rfl
  rintro r w₂ h₂ rfl
  have h₂ := h₁.trans h₂
  refine (hread .start h₂.toWarm).bind 1 (fun _ e => .ok (.error e)) ?_ (fun k e w' _ => .pure _ w')
    fun _ _ => rfl
  rintro r w₃ h₃ rfl
  refine (hread .len (h₂.trans h₃).toWarm).bind 0 (fun _ e => .ok (.error e)) ?_
    (fun k e w' _ => .pure _ w') fun _ _ => rfl
  rintro r w₄ - rfl
  exact .pure rfl

/-- The error of `load_continuation` when its `k`-th call fails: an allocation has no error of its own. --/
def loadErr (k : Nat) (e : Errno) : Errno := if k = 0 then .enomem else e

theorem loadContinuation_asks {chunkId : Nat} (hp : chunkId ∈ w.pool) (hd : w.contData? c = some cd) :
    Asks (loadContinuation c chunkId) w 5 (fun k e => .ok (.error (loadErr k e)))
      fun r _ => r = .ok (loaded c cd chunkId) := by
  unfold loadContinuation
  refine (kzallocCont_asks w).bind 4 (fun _ e => .ok (.error e)) ?_ ?_ ?_
  · rintro r w₁ h₁ rfl
    refine .get_bind ?_
    rw [h₁.pool, findChunk_of_mem hp]
    refine (getContData_asks (h₁.contData? hd)).bind 0 (fun _ e => .ok (.error e)) ?_ ?_ fun _ _ => rfl
    · rintro r w₂ - rfl
      exact .pure rfl
    · exact fun k e w' _ => kfreeCont_ends _ w'
  · intro k e w' hk
    obtain rfl : k = 0 := by omega
    exact .pure _ w'
  · intro k e
    unfold loadErr
    rw [if_neg (by omega)]

end Calls

/-! ### Walks -/

/-- The calls of one step of the walk. --/
def stepCost : Option Continuation → Nat
  | none => 5
  | some _ => 7

/-- How a step from an element ends when its `k`-th call fails: the buffer for the path, its lookup, and the calls that
    load what is found. --/
def nextErr : Nat → Errno → Except Stop Errno
  | 0, _ => .error .oops
  | 1, _ => .ok .enoent
  | k + 2, e => .ok (loadErr k e)

/-- How the walk from `prev` on ends when its `k`-th call fails. --/
def walkErr : Option Continuation → Nat → Errno → Except Stop Errno
  | none, k, e => if k < 5 then .ok (loadErr k e) else nextErr ((k - 5) % 7) e
  | some _, k, e => nextErr (k % 7) e

theorem walkErr_add (prev : Option Continuation) (c : Continuation) (k : Nat) (e : Errno) :
    walkErr prev (stepCost prev + k) e = walkErr (some c) k e := by
  cases prev with
  | none => simp [walkErr, stepCost]
  | some a => simp [walkErr, stepCost]

/-- A walk whose caller takes an error of the first step for `-ENOENT` where `junk` is set. --/
def searchErr (junk : Bool) (prev : Option Continuation) (k : Nat) (e : Errno) : Except Stop Errno :=
  if k < stepCost prev then (walkErr prev k e).map fun e => if junk then .enoent else e else walkErr prev k e

theorem searchErr_false (prev : Option Continuation) (k : Nat) (e : Errno) :
    searchErr false prev k e = walkErr prev k e := by
  unfold searchErr
  split
  · cases walkErr prev k e <;> rfl
  · rfl

theorem searchErr_add (junk : Bool) (prev : Option Continuation) (c : Continuation) (k : Nat) (e : Errno) :
    searchErr junk prev (stepCost prev + k) e = walkErr (some c) k e := by
  unfold searchErr
  rw [if_neg (by omega), walkErr_add prev c]

/-- From `prev` on the steps of the walk give the elements of the list and then stop, and fail where a call does, in
    every world that differs only by reading. --/
inductive Visits (w : World) (d : Dentry) : Option Continuation → List Continuation → Prop where
  | nil {prev : Option Continuation}
      (stop : ∀ w', Warm w w' → ∃ w'', getNextCont d prev w' = .ok (.ok none) w'' ∧ Used 0 w' w'') : Visits w d prev []
  | cons {prev : Option Continuation} {c : Continuation} {cs : List Continuation}
      (next : ∀ w', Warm w w' → Asks (getNextCont d prev) w' (stepCost prev)
        (fun k e => (walkErr prev k e).map .error) fun r _ => r = .ok (some c))
      (rest : Visits w d (some c) cs) : Visits w d prev (c :: cs)

section Walks
variable {w : World} {d : Dentry} {vn : Vnode} {prev : Option Continuation} {cs : List Continuation}

theorem getNextCont_head_asks (hv : w.vnode d.inode = some vn) {cd : ContData} (hp : uinoToChunkId vn.ino ∈ w.pool)
    (hd : w.contData? d.client = some cd) :
    Asks (getNextCont d none) w 5 (fun k e => (walkErr none k e).map .error)
      fun r _ => r = .ok (some (loaded d.client cd (uinoToChunkId vn.ino))) := by
  unfold getNextCont
  refine .after (vnodeAt_used hv) (Used.refl w) ?_
  obtain ⟨w₁, hr₁, hu₁⟩ := dget_used w d.client
  refine .after hr₁ hu₁ ?_
  refine (loadContinuation_asks (hu₁.pool ▸ hp) (hu₁.contData? hd)).bind 0 (fun k e => (walkErr none (5 + k) e).map .error) ?_ ?_
    fun _ _ => rfl
  · rintro r w₂ - rfl
    exact .pure rfl
  · intro k e w' hk
    have hplace : walkErr none k e = .ok (loadErr k e) := if_pos hk
    rw [hplace]
    exact .pure _ w'

theorem getNextCont_end_used (hv : w.vnode d.inode = some vn) {prev : Continuation}
    (hn : prev.cd.next = vn.ino ∨ prev.cd.next = 0) :
    ∃ w', getNextCont d (some prev) w = .ok (.ok none) w' ∧ Used 0 w w' := by
  refine ⟨w, ?_, Used.refl w⟩
  unfold getNextCont
  rw [bind_ok (vnodeAt_used hv)]
  dsimp only
  by_cases h₁ : prev.cd.next = vn.ino
  · rw [if_pos h₁]
    rfl
  · rw [if_neg h₁, if_pos (hn.resolve_left h₁)]
    rfl

theorem getNextCont_next_asks (hv : w.vnode d.inode = some vn) (prev : Continuation) {c : ClientIno} {cd : ContData}
    (hhead : prev.cd.next ≠ vn.ino) (hzero : prev.cd.next ≠ 0)
    (hpath : w.disk.path (contPath (uinoToChunkId prev.cd.next) prev.chunkId (uinoToIno prev.uino)) = some c)
    (hc : w.Readable c) (hp : uinoToChunkId prev.cd.next ∈ w.pool) (hd : w.disk.contData? c = some cd) :
    Asks (getNextCont d (some prev)) w 7 (fun k e => (walkErr (some prev) k e).map .error)
      fun r _ => r = .ok (some (loaded c cd (uinoToChunkId prev.cd.next))) := by
  unfold getNextCont
  refine .after (vnodeAt_used hv) (Used.refl w) ?_
  simp only [hhead, hzero, ↓reduceIte]
  refine (getname_asks w).bind 6 (fun k e => (walkErr (some prev) (1 + k) e).map .error) ?_ ?_ fun _ _ => rfl
  · rintro - w₁ h₁ -
    have hp₁ : w₁.disk.path (contPath (uinoToChunkId prev.cd.next) prev.chunkId (uinoToIno prev.uino)) = some c := by
      rw [h₁.disk]
      exact hpath
    refine (kernPath_asks hp₁ (h₁.readable hc)).bind 5 (fun k e => (walkErr (some prev) (1 + (1 + k)) e).map .error) ?_ ?_
      fun _ _ => rfl
    · rintro r w₂ h₂ ⟨rfl, hlive⟩
      obtain ⟨w₃, hr₃, hu₃⟩ := dget_used w₂ c
      obtain ⟨w₄, hr₄, hu₄⟩ := dput_used w₃ c
      have h₄ := (h₁.trans h₂).trans (hu₃.trans hu₄)
      have hd₄ : w₄.contData? c = some cd := by
        rw [contData?_of_live ((hu₃.trans hu₄).live hlive), h₄.disk]
        exact hd
      refine .after hr₃ hu₃ (.after hr₄ hu₄ ?_)
      refine (loadContinuation_asks (h₄.pool ▸ hp) hd₄).bind 0
        (fun k e => (walkErr (some prev) (1 + (1 + (5 + k))) e).map .error) ?_ ?_ fun _ _ => rfl
      · rintro r w₅ - rfl
        exact .pure rfl
      · intro k e w' hk
        have hplace : walkErr (some prev) (1 + (1 + k)) e = .ok (loadErr k e) := by
          have hmod : (1 + (1 + k)) % 7 = k + 2 := by omega
          simp only [walkErr, hmod, nextErr]
        rw [hplace]
        exact .pure _ w'
    · intro k e w' hk
      obtain rfl : k = 0 := by omega
      exact .pure _ w'
  · intro k e w' hk
    obtain rfl : k = 0 := by omega
    rfl

theorem visits_rest (hv : w.vnode d.inode = some vn) :
    ∀ {a : Continuation} {rest : List Continuation}, (∀ c ∈ rest, Loadable w c) → (a :: rest).IsChain (Names w vn) →
      (∀ c ∈ (a :: rest).getLast?, c.cd.next = vn.ino ∨ c.cd.next = 0) → Visits w d (some a) rest
  | a, [], _, _, hlast => .nil fun w' hw => getNextCont_end_used (hw.vnode ▸ hv) (hlast a (by simp))
  | a, b :: rest, helem, hlinks, hlast => by
    have hb := helem b (by simp)
    obtain ⟨hab, hrest⟩ := List.isChain_cons_cons.mp hlinks
    refine .cons (fun w' hw => ?_) (visits_rest hv (fun c hc => helem c (List.mem_cons_of_mem _ hc)) hrest
      fun c hc => hlast c (by rw [List.getLast?_cons_cons]; exact hc))
    have hr := getNextCont_next_asks (hw.vnode ▸ hv) a (c := b.inode) hab.not_head hab.not_zero
      (by rw [hw.disk]; exact hab.path) (hw.readable hb.readable) (by rw [hw.pool, ← hab.chunk]; exact hb.pool)
      (by rw [hw.disk]; exact hb.data)
    rw [← hab.chunk, ← hb.eq_loaded] at hr
    exact hr

theorem Traced.visits (h : Traced w d vn cs) : Visits w d none cs := by
  obtain ⟨c, rest, rfl, hc, hk⟩ := h.first
  have he := h.elem c (by simp)
  refine .cons (fun w' hw => ?_) (visits_rest h.vnode (fun x hx => h.elem x (List.mem_cons_of_mem _ hx)) h.links h.last)
  have hd : w'.contData? d.client = some c.cd := by
    rw [contData?_of_live (hw.live h.live), hw.disk, ← hc]
    exact he.data
  have hr := getNextCont_head_asks (hw.vnode ▸ h.vnode) (by rw [hw.pool, ← hk]; exact he.pool) hd
  rw [← hk, ← hc, ← he.eq_loaded] at hr
  exact hr

/-- One step of a loop that hands the step's error on. --/
theorem step_asks {α : Type} {c : Continuation} {n : Nat} (junk : Bool) {Q : Except Errno α → World → Prop}
    {f : Except Errno (Option Continuation) → Kern (Except Errno α)}
    (hnext : Asks (getNextCont d prev) w (stepCost prev) (fun k e => (walkErr prev k e).map .error)
      fun r _ => r = .ok (some c))
    (hfail : ∀ e, f (.error e) = pure (.error (if junk then .enoent else e)))
    (hrest : ∀ w', Used (stepCost prev) w w' →
      Asks (f (.ok (some c))) w' n (fun k e => (walkErr (some c) k e).map .error) Q) :
    Asks (getNextCont d prev >>= f) w (stepCost prev + n) (fun k e => (searchErr junk prev k e).map .error) Q := by
  refine hnext.bind n (fun k e => (walkErr (some c) k e).map .error) ?_ ?_ ?_
  · rintro r w' hu rfl
    exact hrest w' hu
  · intro k e w' hk
    have hplace : searchErr junk prev k e = (walkErr prev k e).map fun e => if junk then .enoent else e := if_pos hk
    rw [hplace]
    cases walkErr prev k e with
    | error s => rfl
    | ok e' =>
      have hend : EndsIn (.ok (.error (if junk then .enoent else e'))) (f (.error e')) w' 0 := by
        rw [hfail]
        exact .pure _ w'
      exact hend
  · intro k e
    rw [searchErr_add junk prev c]

/-- The calls of a whole walk. --/
def walkCost : Option Continuation → List Continuation → Nat
  | _, [] => 0
  | prev, c :: cs => stepCost prev + walkCost (some c) cs

theorem lastCont_asks {t : Continuation} (h : Visits w d prev cs) {fuel : Nat} (hf : cs.length < fuel)
    (ht : cs.getLast? = some t) : ∀ w₁, Warm w w₁ →
    Asks (lastCont fuel d prev) w₁ (walkCost prev cs) (fun k e => (walkErr prev k e).map .error)
      fun r _ => r = .ok (some t) := by
  induction h generalizing fuel with
  | nil => cases ht
  | @cons prev c cs next rest ih =>
    intro w₁ h₁
    obtain ⟨n, rfl, hn⟩ := fuel_succ hf
    simp only [← searchErr_false]
    refine step_asks false (next w₁ h₁) (fun _ => rfl) fun w₂ h₂ => ?_
    cases rest with
    | nil stop =>
      obtain ⟨m, rfl, -⟩ := fuel_succ (l := ([] : List Continuation)) (Nat.lt_of_succ_le hn)
      cases ht
      obtain ⟨w₃, hr₃, hu₃⟩ := stop w₂ (h₁.trans h₂.toWarm)
      exact .after hr₃ hu₃ (.pure rfl)
    | cons next' rest' =>
      exact ih (Nat.lt_of_succ_le hn) (by rwa [List.getLast?_cons_cons] at ht) w₂ (h₁.trans h₂.toWarm)

/-- The calls of a search: of the steps up to the first element that covers the offset. --/
def searchCost (offset : Int) : Option Continuation → List Continuation → Nat
  | _, [] => 0
  | prev, c :: cs => stepCost prev + if c.cd.covers offset then 0 else searchCost offset (some c) cs

/-- What a search answers when all its calls work. --/
def searched (cs : List Continuation) (offset : Int) : Except Errno Continuation :=
  match cs.find? (·.cd.covers offset) with
  | none => .error .enoent
  | some c => .ok c

theorem contAtOffsetLoop_asks {offset : Int} (h : Visits w d prev cs) {fuel : Nat} (hf : cs.length < fuel) (junk : Bool) :
    ∀ w₁, Warm w w₁ → Asks (contAtOffsetLoop fuel d offset prev junk) w₁ (searchCost offset prev cs)
      (fun k e => (searchErr junk prev k e).map .error) fun r _ => r = searched cs offset := by
  induction h generalizing fuel junk with
  | nil stop =>
    intro w₁ h₁
    obtain ⟨n, rfl, -⟩ := fuel_succ hf
    obtain ⟨w₂, hr₂, hu₂⟩ := stop w₁ h₁
    exact .after hr₂ hu₂ (.pure rfl)
  | @cons prev c cs next rest ih =>
    intro w₁ h₁
    obtain ⟨n, rfl, hn⟩ := fuel_succ hf
    refine step_asks junk (next w₁ h₁) (fun _ => rfl) fun w₂ h₂ => ?_
    by_cases hc : c.cd.covers offset = true
    · simp only [hc, ↓reduceIte]
      exact .pure (by simp [searched, hc])
    · simp only [hc, Bool.false_eq_true, ↓reduceIte]
      rw [show searched (c :: cs) offset = searched cs offset by simp [searched, hc]]
      simp only [← searchErr_false]
      exact ih (Nat.lt_of_succ_le hn) false w₂ (h₁.trans h₂.toWarm)

end Walks

end Chunkfs
