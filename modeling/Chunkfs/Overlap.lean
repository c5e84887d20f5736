import Chunkfs.Cont

/-! A search and a growing of the same file at the same time. `chunkfs_get_cont_at_offset` holds
    `ii_continuations_lock`, `chunkfs_create_continuation` takes no lock: between any two calls of the one into the
    kernel and the clients, calls of the other can come. Each step here makes at most one call that reads or changes
    what both work on: a path is looked up or opened, or one attribute is read or stored. -/

namespace Chunkfs

def ContData.put (cd : ContData) (a : ContAttr) (value : Nat) : ContData :=
  match a with
  | .next => { cd with next := value }
  | .prev => { cd with prev := value }
  | .start => { cd with start := value }
  | .len => { cd with len := value }

/-- The order in which `get_cont_data` and `set_cont_data` go through the attributes. --/
def ContAttr.inTurn : List ContAttr := [.next, .prev, .start, .len]

namespace Overlap

/-! ### Walking -/

/-- `load_continuation` up to `get_cont_data`. --/
def loadBegins (c : ClientIno) (chunkId : Nat) : Kern (Except Errno (Option (ClientIno × Nat))) := do
  if ← kzallocCont then
    match findChunk (← get).pool chunkId with
    | none => throw .bug
    | some _ => return .ok (some (c, chunkId))
  else
    return .error .enomem

/-- `chunkfs_get_next_cont` up to `get_cont_data`: the client inode to load and its chunk. --/
def seekNext (head : Dentry) (prev : Option Continuation) : Kern (Except Errno (Option (ClientIno × Nat))) := do
  let headInode ← vnodeAt head.inode
  match prev with
  | none =>
    dget head.client
    loadBegins head.client (uinoToChunkId headInode.ino)
  | some prev =>
    if prev.cd.next = headInode.ino then
      return .ok none
    else if prev.cd.next = 0 then
      return .ok none
    else
      let chunkId := uinoToChunkId prev.cd.next
      getname
      match ← kernPath (contPath chunkId prev.chunkId (uinoToIno prev.uino)) with
      | .error _ => return .error .enoent
      | .ok c =>
        dget c
        dput c
        loadBegins c chunkId

/-- How far a walk by `chunkfs_get_next_cont` has come: it is about to look for what follows `prev`; it has a client
    inode and has read its attributes but for those to do; the last call has answered. --/
inductive Stage where
  | seeks (prev : Option Continuation)
  | reads (prev : Option Continuation) (c : ClientIno) (chunkId : Nat) (cd : ContData) (todo : List ContAttr)
  | ended (prev : Option Continuation) (r : Except Errno (Option Continuation))

/-- One step of a walk that goes on until an element is `wanted`. --/
def Stage.step (head : Dentry) (wanted : ContData → Bool) : Stage → Kern Stage
  | .seeks prev => do
    match ← seekNext head prev with
    | .error e => return .ended prev (.error e)
    | .ok none => return .ended prev (.ok none)
    | .ok (some (c, chunkId)) => return .reads prev c chunkId ⟨0, 0, 0, 0⟩ ContAttr.inTurn
  | .reads prev c chunkId cd (a :: todo) => do
    match ← getSetContData c a 0 0 with
    | .error e =>
      kfreeCont
      return .ended prev (.error e)
    | .ok value => return .reads prev c chunkId (cd.put a value) todo
  | .reads prev c chunkId cd [] => do
    let next : Continuation := { inode := c, cd := cd, chunkId := chunkId, uino := makeUino chunkId c.ino }
    if wanted cd then return .ended prev (.ok (some next)) else return .seeks (some next)
  | .ended prev r => return .ended prev r

/-- What `chunkfs_get_cont_at_offset` makes of the last answer; `junkNull` is as for `contAtOffsetLoop`. --/
def Stage.answer (junkNull : Bool) : Stage → Option (Except Errno Continuation)
  | .ended _ (.ok (some next)) => some (.ok next)
  | .ended _ (.ok none) => some (.error .enoent)
  | .ended prev (.error e) => some (.error (if prev.isNone && junkNull then .enoent else e))
  | _ => none

/-! ### Growing -/

/-- How far `chunkfs_create_continuation` has come: it has not been called or is done; it walks to the last element;
    it opens the file behind `prev`; it stores the attributes to do at the new inode `c`, and then at `prev`; it loads
    the new continuation. --/
inductive Growing where
  | idle
  | walks (stage : Stage)
  | opens (prev : Continuation)
  | fills (prev : Continuation) (c : ClientIno) (todo : List ContAttr)
  | links (prev : Continuation) (c : ClientIno) (todo : List ContAttr)
  | loads (prev : Continuation) (c : ClientIno)

def Growing.step (head : Dentry) : Growing → Kern Growing
  | .idle => return .walks (.seeks none)
  | .walks (.ended prev (.ok _)) =>
    match prev with
    | none => throw .oops
    | some prev => return .opens prev
  | .walks (.ended _ (.error _)) => return .idle
  | .walks stage => do return .walks (← stage.step head fun _ => false)
  | .opens prev => do
    getname
    match ← filpOpen (contPath ((prev.chunkId + 1) % 2 ^ 64) prev.chunkId (uinoToIno prev.uino)) oCreatRdwr contMode with
    | .error _ =>
      putContinuation prev
      return .idle
    | .ok newFile =>
      dget newFile.inode
      return .fills prev newFile.inode ContAttr.inTurn
  -- The results of the two updates are dropped: a failure only ends its own update.
  | .fills prev c (a :: todo) => do
    match ← getSetContData c a ((nextCd prev).value a) 1 with
    | .error _ => return .links prev c ContAttr.inTurn
    | .ok _ => return .fills prev c todo
  | .fills prev c [] => return .links prev c ContAttr.inTurn
  | .links prev c (a :: todo) => do
    let cd := { prev.cd with next := makeUino ((prev.chunkId + 1) % 2 ^ 64) c.ino }
    match ← getSetContData prev.inode a (cd.value a) 1 with
    | .error _ => return .loads prev c
    | .ok _ => return .links prev c todo
  | .links prev c [] => return .loads prev c
  | .loads prev c => do
    match ← loadContinuation c ((prev.chunkId + 1) % 2 ^ 64) with
    | .error _ => throw .oops
    | .ok _ => return .idle

/-! ### Both at once -/

structure State where
  world : World
  search : Stage
  growing : Growing

/-- The search takes a step, the growing takes one, or the rest of the system has made a world of this one. --/
inductive Event where
  | look
  | grow
  | other (w : World)

def Stage.isEnded : Stage → Bool
  | .ended _ _ => true
  | _ => false

/-- One step, if it is due and returns. --/
def step (head : Dentry) (offset : Int) (s : State) : Event → Option State
  | .look =>
    if s.search.isEnded then none else
      match s.search.step head (·.covers offset) s.world with
      | .ok search w => some { s with world := w, search := search }
      | .error _ _ => none
  | .grow =>
    match s.growing.step head s.world with
    | .ok growing w => some { s with world := w, growing := growing }
    | .error _ _ => none
  | .other w => some { s with world := w }

/-- The search begins; nothing is growing. --/
def begin (w : World) : State := { world := w, search := .seeks none, growing := .idle }

def Event.isLook : Event → Bool
  | .look => true
  | _ => false

end Overlap

end Chunkfs
