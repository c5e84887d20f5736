import Chunkfs.Lib.Run

/-! `chunkfs_kernel_mutex`, and the two functions that use it as they are run by any tasks side by side:
    `chunkfs_fill_super`, which mounts, and `chunkfs_write_super`, which syncs the super-block. -/

namespace Chunkfs

abbrev Task := Nat

/-- What a task will do next in one of the two functions. --/
inductive Pc where
  | setBlocksize
  | readPool
  | readRoot
  | setupSuper
  | lockAtExit
  | lock
  | commitSuper
  | unlock
deriving DecidableEq

/-- The task that holds the mutex, and what each task does that is in one of the functions. --/
structure Locks where
  holder : Option Task
  pc : Task → Option Pc

/-- A task mounts or syncs, or goes on: what it does next works or fails. --/
inductive LockEvent where
  | fillSuper (t : Task)
  | writeSuper (t : Task)
  | go (t : Task) (works : Bool)
deriving DecidableEq

namespace Locks

def goto (s : Locks) (t : Task) (next : Option Pc) : Locks :=
  { s with pc := fun u => if u = t then next else s.pc u }

/-- `mutex_unlock`. What it does to a mutex that the task does not hold is not specified: `stray` tells. --/
def mutexUnlock (stray : Option Task → Option Task) (s : Locks) (t : Task) : Locks :=
  { s with holder := if s.holder = some t then none else stray s.holder }

/-- `mutex_lock`: the task waits while the mutex is held. --/
def mutexLock (s : Locks) (t : Task) : Option Locks :=
  match s.holder with
  | none => some { s with holder := some t }
  | some _ => none

/-- The mount begins with `mutex_unlock`, and both its exits with `mutex_lock`. --/
def step (stray : Option Task → Option Task) (s : Locks) : LockEvent → Option Locks
  | .fillSuper t =>
    match s.pc t with
    | none => some ((s.mutexUnlock stray t).goto t (some .setBlocksize))
    | some _ => none
  | .writeSuper t =>
    match s.pc t with
    | none => some (s.goto t (some .lock))
    | some _ => none
  | .go t works =>
    match s.pc t with
    | none => none
    | some .setBlocksize => some (s.goto t (some (if works then .readPool else .lockAtExit)))
    | some .readPool => some (s.goto t (some (if works then .readRoot else .lockAtExit)))
    | some .readRoot => some (s.goto t (some (if works then .setupSuper else .lockAtExit)))
    | some .setupSuper => some (s.goto t (some .lockAtExit))
    | some .lockAtExit => (s.mutexLock t).map (·.goto t none)
    | some .lock => (s.mutexLock t).map (·.goto t (some .commitSuper))
    | some .commitSuper => some (s.goto t (some .unlock))
    | some .unlock => some ((s.mutexUnlock stray t).goto t none)

/-- No task is in the functions and the mutex is free. --/
def idle : Locks := { holder := none, pc := fun _ => none }

end Locks

end Chunkfs
