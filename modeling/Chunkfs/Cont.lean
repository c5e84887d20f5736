import Chunkfs.Kernel

/-! Continuations (`cont.c`): the attributes that link the client inodes of a file, the two walks along
    them, and the creation of a new last one. A walk follows numbers read from disk, so its loop runs
    on fuel. -/

namespace Chunkfs
open Word

/-! ### Continuation data -/

/-- `get_set_cont_data`: `type` 0 reads the value, 1 stores it. --/
def getSetContData (c : ClientIno) (name : ContAttr) (value type : Nat) : Kern (Except Errno Nat) := do
  if type = 0 then
    match ← genericGetxattr c name with
    | .error e => return .error e
    | .ok text => return .ok (attrValue text)
  else
    match ← genericSetxattr c name (attrText value) with
    | .error e => return .error e
    | .ok _ => return .ok value

def setContData (c : ClientIno) (cd : ContData) : Kern (Except Errno Unit) := do
  match ← getSetContData c .next cd.next 1 with
  | .error e => return .error e
  | .ok _ =>
    match ← getSetContData c .prev cd.prev 1 with
    | .error e => return .error e
    | .ok _ =>
      match ← getSetContData c .start cd.start 1 with
      | .error e => return .error e
      | .ok _ =>
        match ← getSetContData c .len cd.len 1 with
        | .error e => return .error e
        | .ok _ => return .ok ()

def getContData (c : ClientIno) : Kern (Except Errno ContData) := do
  match ← getSetContData c .next 0 0 with
  | .error e => return .error e
  | .ok next =>
    match ← getSetContData c .prev 0 0 with
    | .error e => return .error e
    | .ok prev =>
      match ← getSetContData c .start 0 0 with
      | .error e => return .error e
      | .ok start =>
        match ← getSetContData c .len 0 0 with
        | .error e => return .error e
        | .ok len => return .ok { next := next, prev := prev, start := start, len := len }

/-- The length of every segment. --/
def segLen : Nat := 10 * 4096

/-- What `chunkfs_init_cont_data` stores. --/
def initCd : ContData := { next := 0, prev := 0, start := 0, len := segLen }

def initContData (c : ClientIno) : Kern (Except Errno Unit) := setContData c initCd

/-! ### Finding the next continuation -/

/-- `chunkfs_find_chunk`. --/
def findChunk (pool : List Nat) (chunkId : Nat) : Option Nat := pool.find? (· == chunkId)

/-- `"/chunk%llu/%llu/%llu"`: the name of the continuation, in chunk `chunkId`, of the inode `fromIno` of
    chunk `fromChunk`. --/
def contPath (chunkId fromChunk fromIno : Nat) : List Char :=
  "/chunk".toList ++ (Decimal.print chunkId ++ '/' :: (Decimal.print fromChunk ++ '/' :: Decimal.print fromIno))

/-- The directory of such continuations. --/
def contDir (chunkId fromChunk : Nat) : List Char :=
  "/chunk".toList ++ (Decimal.print chunkId ++ '/' :: (Decimal.print fromChunk ++ ['/']))

def loadContinuation (c : ClientIno) (chunkId : Nat) : Kern (Except Errno Continuation) := do
  if ← kzallocCont then
    match findChunk (← get).pool chunkId with
    | none => throw .bug
    | some _ =>
      match ← getContData c with
      | .error e =>
        kfreeCont
        return .error e
      | .ok cd => return .ok { inode := c, cd := cd, chunkId := chunkId, uino := makeUino chunkId c.ino }
  else
    return .error .enomem

def putContinuation (cont : Continuation) : Kern Unit := do
  dput cont.inode
  kfreeCont

/-- The number of a chunkfs inode; a freed one is a wild pointer. --/
def vnodeAt (v : Nat) : Kern Vnode := do
  match (← get).vnode v with
  | none => throw .oops
  | some vn => return vn

/-- `chunkfs_get_next_cont`: the head when there is no previous one, else the file that the previous one's
    `next` names, found by path; `none` at the end of the chain. --/
def getNextCont (head : Dentry) (prev : Option Continuation) : Kern (Except Errno (Option Continuation)) := do
  let headInode ← vnodeAt head.inode
  match prev with
  | none =>
    dget head.client
    match ← loadContinuation head.client (uinoToChunkId headInode.ino) with
    | .error e => return .error e
    | .ok cont => return .ok (some cont)
  | some prev =>
    if prev.cd.next = headInode.ino then
      return .ok none
    else if prev.cd.next = 0 then
      return .ok none
    else
      let chunkId := uinoToChunkId prev.cd.next
      getname
      match ← kernPath (contPath chunkId prev.chunkId (uinoToIno prev.uino)) with
      | .error _ => return .error .enoent
      | .ok c =>
        dget c
        dput c
        match ← loadContinuation c chunkId with
        | .error e => return .error e
        | .ok cont => return .ok (some cont)

/-- The test of `chunkfs_get_cont_at_offset`; a signed offset is compared as an unsigned number. --/
def ContData.covers (cd : ContData) (offset : Int) : Bool :=
  cd.start ≤ u64 offset && u64 offset < (cd.start + cd.len) % 2 ^ 64

/-- The loop of `chunkfs_get_cont_at_offset`. `nextNull` says whether `next_cont` is NULL when the next
    call fails: it is unset before the first element and the previous element afterwards. --/
def contAtOffsetLoop : Nat → Dentry → Int → Option Continuation → Bool → Kern (Except Errno Continuation)
  | 0, _, _, _, _ => throw .hang
  | fuel + 1, dentry, offset, prev, nextNull => do
    match ← getNextCont dentry prev with
    | .error e => return .error (if nextNull then .enoent else e)
    | .ok none => return .error .enoent
    | .ok (some next) =>
      if next.cd.covers offset then return .ok next
      else contAtOffsetLoop fuel dentry offset (some next) false

def getContAtOffset (dentry : Dentry) (offset : Int) : Kern (Except Errno Continuation) := do
  let env := (← get).env
  contAtOffsetLoop env.fuel dentry offset none env.junkNull

/-! ### The walk by inode number -/

/-- `chunkfs_get_next_inode`. --/
def getNextInode (head : Nat) (prev : Option ClientIno) : Kern (Except Errno (Option ClientIno)) := do
  let found (c : ClientIno) : Kern (Except Errno (Option ClientIno)) := do
    if ← igetLocked c then
      if (← get).icache c = .bad then return .error .eio else return .ok (some c)
    else
      throw .bug
  match prev with
  | none =>
    match (← vnodeAt head).client with
    | none => throw .oops
    | some c => found c
  | some c =>
    match ← getContData c with
    | .error e => return .error e
    | .ok cd =>
      if cd.next = 0 then
        return .ok none
      else
        match findChunk (← get).pool (uinoToChunkId cd.next) with
        | none => throw .bug
        | some chunk => found ⟨chunk, uinoToIno cd.next⟩

/-! ### Growing a file -/

/-- The client position and the caller's position after `chunkfs_copy_down_file`. --/
def copyDownFile (ppos : Int) (clientStart : Nat) : Int := s64 (ppos - clientStart)

/-- The first loop of `chunkfs_create_continuation`: the last element of the chain. --/
def lastCont : Nat → Dentry → Option Continuation → Kern (Except Errno (Option Continuation))
  | 0, _, _ => throw .hang
  | fuel + 1, dentry, prev => do
    match ← getNextCont dentry prev with
    | .error e => return .error e
    | .ok none => return .ok prev
    | .ok (some next) => lastCont fuel dentry (some next)

/-- `O_CREAT | O_RDWR`. --/
def oCreatRdwr : Nat := 0o100 ||| 0o2

/-- `MAY_WRITE | MAY_READ | MAY_APPEND`, passed as the mode of the new file. --/
def contMode : Nat := 2 ||| 4 ||| 8

/-- What `chunkfs_create_continuation` and `chunkfs_open_cont_file` hand back: the position in the client
    file, the client file and its continuation. --/
structure Opened where
  ppos : Int
  file : ClientFile
  cont : Continuation

/-- The data of a continuation that follows `prev`. --/
def nextCd (prev : Continuation) : ContData :=
  { next := 0, prev := prev.uino, start := (prev.cd.start + prev.cd.len) % 2 ^ 64, len := segLen }

def createContinuation (file : File) (ppos : Int) : Kern (Except Errno Opened) := do
  match ← lastCont (← get).env.fuel file.dentry none with
  | .error e => return .error e
  | .ok none => throw .oops
  | .ok (some prev) =>
    let toChunk := (prev.chunkId + 1) % 2 ^ 64
    getname
    match ← filpOpen (contPath toChunk prev.chunkId (uinoToIno prev.uino)) oCreatRdwr contMode with
    | .error e =>
      putContinuation prev
      return .error e
    | .ok newFile =>
      dget newFile.inode
      -- The results of the two updates are dropped.
      let _ ← setContData newFile.inode (nextCd prev)
      let _ ← setContData prev.inode { prev.cd with next := makeUino toChunk newFile.inode.ino }
      match ← loadContinuation newFile.inode toChunk with
      -- `new_cont` is unset here and read all the same.
      | .error _ => throw .oops
      | .ok cont =>
        let pos := copyDownFile ppos cont.cd.start
        return .ok { ppos := pos, file := { newFile with pos := pos }, cont := cont }

end Chunkfs
