import Chunkfs.KernelMutex

/-! The discipline of `chunkfs_kernel_mutex`. A sync takes the mutex and gives it back; a mount does it the
    other way round. -/

namespace Chunkfs

/-- What is left of a function gives the mutex back. --/
def Pc.Releases : Pc → Prop
  | .lock => True
  | .commitSuper => True
  | .unlock => True
  | _ => False

namespace Locks
variable {stray : Option Task → Option Task} {s s' : Locks} {t u : Task} {e : LockEvent} {es : List LockEvent}

/-- The task whose step unlocks the mutex. --/
def unlocker (s : Locks) : LockEvent → Option Task
  | .fillSuper t => some t
  | .writeSuper _ => none
  | .go t _ => if s.pc t = some .unlock then some t else none

/-- A task that unlocks the mutex holds it. --/
def UnlocksOwn (s : Locks) (e : LockEvent) : Prop := ∀ t, s.unlocker e = some t → s.holder = some t

/-- The mutex is free while no task is in the functions, and a sync waits only for another task that is in one
    of them and will give the mutex back. --/
structure Orderly (s : Locks) : Prop where
  free : (∀ t, s.pc t = none) → s.holder = none
  waits : ∀ t, s.pc t = some .lock → ∀ u, s.holder = some u → u ≠ t ∧ ∃ p, s.pc u = some p ∧ p.Releases

/-- Every task is in a sync or in neither function, and the holder is the one between its lock and its unlock. --/
structure Syncing (s : Locks) : Prop where
  holder : ∀ u, s.holder = some u ↔ s.pc u = some .commitSuper ∨ s.pc u = some .unlock
  sync : ∀ t p, s.pc t = some p → p.Releases

theorem Syncing.orderly (h : s.Syncing) : s.Orderly := by
  refine ⟨fun hidle => ?_, fun t ht u hu => ?_⟩
  · cases hh : s.holder with
    | none => rfl
    | some u =>
      rcases (h.holder u).mp hh with hp | hp <;> rw [hidle u] at hp <;> cases hp
  · have hp := (h.holder u).mp hu
    refine ⟨?_, ?_⟩
    · rintro rfl
      rcases hp with hp | hp <;> rw [ht] at hp <;> cases hp
    · rcases hp with hp | hp
      · exact ⟨_, hp, trivial⟩
      · exact ⟨_, hp, trivial⟩

theorem idle_syncing : idle.Syncing := by
  refine ⟨fun u => ⟨?_, ?_⟩, ?_⟩
  · intro h
    cases h
  · rintro (h | h) <;> cases h
  · intro t p h
    cases h

theorem goto_pc (s : Locks) (t : Task) (next : Option Pc) (u : Task) :
    (s.goto t next).pc u = if u = t then next else s.pc u := rfl

/-- A sync that goes on: it waits for a free mutex, holds it, and gives it back. --/
theorem Syncing.go_cases (h : s.Syncing) {works : Bool} (hs : s.step stray (.go t works) = some s') :
    (s.pc t = some .lock ∧ s.holder = none ∧ s' = goto { s with holder := some t } t (some .commitSuper)) ∨
    (s.pc t = some .commitSuper ∧ s' = s.goto t (some .unlock)) ∨
    (s.pc t = some .unlock ∧ s.holder = some t ∧ s' = goto { s with holder := none } t none) := by
  unfold step at hs
  cases hp : s.pc t with
  | none => simp [hp] at hs
  | some p =>
    have hrel := h.sync t p hp
    cases p with
    | setBlocksize => exact absurd hrel id
    | readPool => exact absurd hrel id
    | readRoot => exact absurd hrel id
    | setupSuper => exact absurd hrel id
    | lockAtExit => exact absurd hrel id
    | lock =>
      refine Or.inl ⟨rfl, ?_⟩
      cases hh : s.holder with
      | none =>
        simp only [hp, mutexLock, hh, Option.map_some, Option.some.injEq] at hs
        exact ⟨rfl, hs.symm⟩
      | some u => simp [hp, mutexLock, hh] at hs
    | commitSuper =>
      simp only [hp, Option.some.injEq] at hs
      exact Or.inr (Or.inl ⟨rfl, hs.symm⟩)
    | unlock =>
      have hh : s.holder = some t := (h.holder t).mpr (Or.inr hp)
      simp only [hp, mutexUnlock, hh, ↓reduceIte, Option.some.injEq] at hs
      exact Or.inr (Or.inr ⟨rfl, hh, hs.symm⟩)

theorem Syncing.writeSuper (h : s.Syncing) (ht : s.pc t = none) : (s.goto t (some .lock)).Syncing := by
  refine ⟨fun u => ?_, fun u p hp => ?_⟩
  · rw [goto_pc]
    split
    · rename_i hu
      subst hu
      have hfree : s.holder ≠ some u := by
        intro hh
        rcases (h.holder u).mp hh with hp | hp <;> rw [ht] at hp <;> cases hp
      exact ⟨fun hh => absurd hh hfree, fun hp => by rcases hp with hp | hp <;> cases hp⟩
    · exact h.holder u
  · rw [goto_pc] at hp
    split at hp
    · cases hp
      trivial
    · exact h.sync u p hp

theorem Syncing.lock (h : s.Syncing) (hfree : s.holder = none) :
    (goto { s with holder := some t } t (some .commitSuper)).Syncing := by
  refine ⟨fun u => ?_, fun u p hp => ?_⟩
  · rw [goto_pc]
    split
    · rename_i hu
      subst hu
      exact ⟨fun _ => Or.inl rfl, fun _ => rfl⟩
    · rename_i hu
      refine ⟨fun hh => ?_, fun hp => ?_⟩
      · cases hh
        exact absurd rfl hu
      · have hh := (h.holder u).mpr hp
        rw [hfree] at hh
        cases hh
  · rw [goto_pc] at hp
    split at hp
    · cases hp
      trivial
    · exact h.sync u p hp

theorem Syncing.commit (h : s.Syncing) (ht : s.pc t = some .commitSuper) : (s.goto t (some .unlock)).Syncing := by
  refine ⟨fun u => ?_, fun u p hp => ?_⟩
  · rw [goto_pc]
    split
    · rename_i hu
      subst hu
      exact ⟨fun _ => Or.inr rfl, fun _ => (h.holder u).mpr (Or.inl ht)⟩
    · exact h.holder u
  · rw [goto_pc] at hp
    split at hp
    · cases hp
      trivial
    · exact h.sync u p hp

theorem Syncing.unlock (h : s.Syncing) (ht : s.holder = some t) : (goto { s with holder := none } t none).Syncing := by
  refine ⟨fun u => ?_, fun u p hp => ?_⟩
  · rw [goto_pc]
    refine ⟨nofun, fun hp => ?_⟩
    split at hp
    · rcases hp with hp | hp <;> cases hp
    · rename_i hu
      have hh := (h.holder u).mpr hp
      rw [ht] at hh
      cases hh
      exact absurd rfl hu
  · rw [goto_pc] at hp
    split at hp
    · cases hp
    · exact h.sync u p hp

/-- Steps other than a mount keep the discipline. --/
theorem Syncing.step (h : s.Syncing) (he : ∀ t, e ≠ .fillSuper t) :
    s.UnlocksOwn e ∧ ∀ s', s.step stray e = some s' → s'.Syncing := by
  cases e with
  | fillSuper t => exact absurd rfl (he t)
  | writeSuper t =>
    refine ⟨nofun, fun s' hs => ?_⟩
    unfold Locks.step at hs
    cases hp : s.pc t with
    | some p => simp [hp] at hs
    | none =>
      simp only [hp, Option.some.injEq] at hs
      subst hs
      exact h.writeSuper hp
  | go t works =>
    refine ⟨fun u hu => ?_, fun s' hs => ?_⟩
    · simp only [unlocker, Option.ite_none_right_eq_some, Option.some.injEq] at hu
      obtain ⟨hp, rfl⟩ := hu
      exact (h.holder t).mpr (Or.inr hp)
    · rcases h.go_cases hs with ⟨-, hfree, rfl⟩ | ⟨hp, rfl⟩ | ⟨-, hh, rfl⟩
      · exact h.lock hfree
      · exact h.commit hp
      · exact h.unlock hh

/-- A mount begins by unlocking a mutex that its task does not hold. --/
theorem Syncing.fillSuper (h : s.Syncing) (hs : s.step stray (.fillSuper t) = some s') :
    ¬s.UnlocksOwn (.fillSuper t) := by
  intro hown
  have hp := (h.holder t).mp (hown t rfl)
  unfold Locks.step at hs
  rcases hp with hp | hp <;> simp [hp] at hs

/-- The runs in which the mutex is only unlocked by its holder, is free whenever neither function runs, and is
    given back to every sync that waits for it are the runs without a mount. --/
theorem disciplined_iff_no_mount (hrun : (Run.run (step stray) idle es).isSome) :
    Run.Always (step stray) Orderly UnlocksOwn idle es ↔ ∀ t, .fillSuper t ∉ es := by
  have hiff : Run.Always (step stray) Orderly UnlocksOwn idle es ↔
      Run.Each (step stray) (fun _ e => ∀ t, e ≠ .fillSuper t) idle es := by
    refine Run.always_iff_each (fun s => Syncing.orderly) (fun s e h he => h.step he) ?_ idle_syncing hrun
    rintro s e s' h hs hown - t rfl
    exact h.fillSuper hs hown
  rw [hiff, Run.each_iff_forall hrun]
  exact ⟨fun h t ht => h _ ht t rfl, fun h e he t het => h t (het ▸ he)⟩

/-- Two syncs, the second of which waits for the first. --/
theorem disciplined_two_syncs : Run.Always (step fun _ => none) Orderly UnlocksOwn idle
    [.writeSuper 1, .writeSuper 2, .go 1 true, .go 1 true, .go 1 true, .go 2 true] :=
  (disciplined_iff_no_mount (by decide)).mpr (by simp)

/-- A mount that fails at once leaves the mutex held by a task that runs neither function. --/
theorem mutex_held_after_mount : ∃ s, Run.run (step fun _ => none) idle [.fillSuper 1, .go 1 false, .go 1 true] = some s ∧
    s.holder = some 1 ∧ (∀ t, s.pc t = none) ∧
    ¬Run.Always (step fun _ => none) Orderly UnlocksOwn idle [.fillSuper 1, .go 1 false, .go 1 true] := by
  refine ⟨_, rfl, rfl, fun t => ?_, fun ha => ?_⟩
  · simp only [goto_pc]
    split <;> rfl
  · have hown := ha.2.1 1 rfl
    cases hown

end Locks
end Chunkfs
