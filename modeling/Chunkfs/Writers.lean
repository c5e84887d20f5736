import Chunkfs.File
import Mathlib.Logic.Function.Basic

/-! Calls of `chunkfs_write` on one file at the same time. The search is made under `ii_continuations_lock`, which is
    released before `chunkfs_create_continuation` and the client's write: between these three steps of a call those
    of other calls can come. -/

namespace Chunkfs.Writers
variable {ι : Type}

/-- One call of `chunkfs_write`. --/
structure Writer where
  file : File
  data : List UInt8
  ppos : Int

/-- How far a call has come: its search is still to come, it has missed when so many appends had been made, a client
    file is open, or it has ended, with the client file it had open if it came to one. --/
inductive Phase where
  | start
  | missed (seen : Nat)
  | opened (o : Opened)
  | ended (o : Option Opened)

structure State (ι : Type) where
  world : World
  phase : ι → Phase
  /-- The appends made so far, by any call. -/
  appends : Nat

inductive Event (ι : Type) where
  | search (i : ι)
  | append (i : ι)
  | finish (i : ι)

/-- Where a call goes on after its search. --/
def afterSearch (appends : Nat) : Except Errno Opened → Phase
  | .ok o => .opened o
  | .error e => if e = .enoent then .missed appends else .ended none

/-- Where a call goes on after `chunkfs_create_continuation`. --/
def afterAppend : Except Errno Opened → Phase
  | .ok o => .opened o
  | .error _ => .ended none

variable [DecidableEq ι]

/-- The call `i` has come to a phase and left a world. --/
def State.go (s : State ι) (i : ι) (ph : Phase) (w : World) : State ι :=
  { s with world := w, phase := Function.update s.phase i ph }

@[simp] theorem State.go_world (s : State ι) (i : ι) (ph : Phase) (w : World) : (s.go i ph w).world = w := rfl

@[simp] theorem State.go_appends (s : State ι) (i : ι) (ph : Phase) (w : World) : (s.go i ph w).appends = s.appends := rfl

@[simp] theorem State.go_same (s : State ι) (i : ι) (ph : Phase) (w : World) : (s.go i ph w).phase i = ph :=
  Function.update_self ..

theorem State.go_of_ne (s : State ι) {i j : ι} (h : j ≠ i) (ph : Phase) (w : World) :
    (s.go i ph w).phase j = s.phase j := Function.update_of_ne h ..

/-- The state after a step of a call; a step that does not return ends its call. --/
def State.after {α : Type} (s : State ι) (i : ι) (next : α → Phase) : EStateM.Result Stop World α → State ι
  | .ok a w => s.go i (next a) w
  | .error _ w => s.go i (.ended none) w

/-- One step of a call, if it is due. --/
def step (ws : ι → Writer) (s : State ι) : Event ι → Option (State ι)
  | .search i =>
    match s.phase i with
    | .start => some (s.after i (afterSearch s.appends) (openContFile (ws i).file (ws i).ppos s.world))
    | _ => none
  | .append i =>
    match s.phase i with
    | .missed _ =>
      let t := s.after i afterAppend (createContinuation (ws i).file (ws i).ppos s.world)
      some { t with appends := s.appends + 1 }
    | _ => none
  | .finish i =>
    match s.phase i with
    | .opened o => some (s.after i (fun _ => .ended (some o)) (writeOpened (ws i).file (ws i).data o s.world))
    | _ => none

/-- No call has begun. --/
def begin (w : World) : State ι := { world := w, phase := fun _ => .start, appends := 0 }

end Chunkfs.Writers
