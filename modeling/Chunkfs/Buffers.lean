import Chunkfs.Cont
import Chunkfs.Lib.Buffer
import Chunkfs.Super

/-! The arrays on the stack of `get_set_cont_data` and of `chunkfs_read_client_sb`: the two functions as in `Cont` and
    `Super`, with the characters they store and where. What the arrays hold at the call is whatever was there. -/

namespace Chunkfs

/-! ### Names -/

/-- The names that `cont.c` passes. --/
def ContAttr.name : ContAttr → List Char
  | .next => "next".toList
  | .prev => "prev".toList
  | .start => "start".toList
  | .len => "len".toList

/-- `prefix`. --/
def userPrefix : List Char := "user.".toList

/-- The name under which the client stores an attribute. --/
def ContAttr.fullName (a : ContAttr) : List Char := userPrefix ++ a.name

/-- The size of the buffer for a full name. --/
def fullNameSize : Nat := 50

theorem ContAttr.fullName_injective : Function.Injective ContAttr.fullName := by
  intro a b h
  cases a <;> cases b <;> first | rfl | exact absurd h (by decide)

/-- The attribute that the client's store has under a full name. --/
def ContAttr.named (fullName : List Char) : Option ContAttr :=
  [ContAttr.next, .prev, .start, .len].find? fun a => a.fullName = fullName

theorem ContAttr.named_fullName (a : ContAttr) : ContAttr.named a.fullName = some a := by cases a <;> decide

/-- `generic_getxattr` with a name; of the client's attributes only the four are kept, and no other is asked for. --/
def getxattrNamed (c : ClientIno) (fullName : List Char) : Kern (Except Errno (List Char)) :=
  match ContAttr.named fullName with
  | none => return .error .enodata
  | some a => genericGetxattr c a

/-- `generic_setxattr` with a name. --/
def setxattrNamed (c : ClientIno) (fullName text : List Char) : Kern (Except Errno Unit) :=
  match ContAttr.named fullName with
  | none => return .error .eio
  | some a => genericSetxattr c a text

/-! ### Continuation data -/

/-- The arrays of `get_set_cont_data`. --/
structure Frame where
  valueStr : Buffer
  fullName : Buffer

/-- The arrays at the call, with what the stack holds. --/
def Frame.unset (valueStr fullName : Nat → Char) : Frame := ⟨.unset valueStr, .unset fullName⟩

/-- `get_set_cont_data` on its arrays: the client copies an attribute into `value_str`, which is terminated behind it. --/
def getSetContDataIn (c : ClientIno) (name : List Char) (value type : Nat) (f : Frame) :
    Kern (Except Errno Nat × Frame) := do
  let fullName := f.fullName.sprintf (userPrefix ++ name)
  if type = 0 then
    match ← getxattrNamed c (fullName.string fullNameSize) with
    | .error e => return (.error e, ⟨f.valueStr, fullName⟩)
    | .ok text =>
      let valueStr := (f.valueStr.copy 0 text).store text.length '\x00'
      return (.ok (Decimal.parse 64 (valueStr.contents (text.length + 1))), ⟨valueStr, fullName⟩)
  else
    let valueStr := f.valueStr.sprintf (Decimal.print value)
    let strlen := (valueStr.string valueStrSize).length
    match ← setxattrNamed c (fullName.string fullNameSize) (valueStr.contents (strlen + 1)) with
    | .error e => return (.error e, ⟨valueStr, fullName⟩)
    | .ok _ => return (.ok value, ⟨valueStr, fullName⟩)

/-! ### The mount point of a chunk -/

/-- `path_prefix`. --/
def pathPrefix : List Char := "/chunk".toList

/-- `chunkfs_read_client_sb` on its array; nothing ends the lookup but the terminator of the path. --/
def readClientSbIn (ci : ChunkInfo) (b : Buffer) : Mount (Option Errno × Buffer) := do
  let path := pathPrefix ++ Decimal.print ci.chunkId
  let mountPath := b.sprintf path
  return ((← get).kernPath (mountPath.string (path.length + 1)), mountPath)

/-- The chunk information that `chunkfs_read_chunk` fills in from a summary. --/
def chunkInfoOf (chunk : Block) : ChunkInfo := { flags := cFlags chunk, chunkId := cChunkId chunk }

end Chunkfs
