import Chunkfs.File

/-! Directories (`dir.c`). A directory of chunkfs is a directory of the client file system in its chunk; the client's own
    operations do the work, on a client file that is found and opened as that of a regular file is. -/

namespace Chunkfs
open Word

/-- The origin of a seek, in the order of the numbers `SEEK_SET` to `SEEK_HOLE`. --/
inductive Origin where
  | set
  | cur
  | fromEnd
  | data
  | hole
deriving DecidableEq

/-- What a client's `llseek` returns, and the position it leaves in its file. --/
structure Sought where
  ret : Int
  pos : Int
deriving DecidableEq

def Errno.enxio : Errno := ⟨6, by decide⟩

/-- `vfs_setpos`. --/
def vfsSetpos (file : ClientFile) (maxBytes offset : Int) : Sought :=
  if 0 ≤ offset ∧ offset ≤ maxBytes then ⟨offset, offset⟩ else ⟨Errno.einval.ret, file.pos⟩

/-- `generic_file_llseek` of a client directory of `size` bytes; `default_llseek`, which stands in where the client has no
    `llseek`, does the same without a largest position of its own. --/
def genericFileLlseek (size maxBytes : Int) (file : ClientFile) (offset : Int) : Origin → Sought
  | .set => vfsSetpos file maxBytes offset
  | .cur => if offset = 0 then ⟨file.pos, file.pos⟩ else vfsSetpos file maxBytes (file.pos + offset)
  | .fromEnd => vfsSetpos file maxBytes (size + offset)
  | .data => if size ≤ offset then ⟨Errno.enxio.ret, file.pos⟩ else vfsSetpos file maxBytes offset
  | .hole => if size ≤ offset then ⟨Errno.enxio.ret, file.pos⟩ else vfsSetpos file maxBytes size

/-- What a client's `iterate` hands out, where it leaves `ctx->pos` and the position of its file, and what it returns. --/
structure Listing (α : Type) where
  entries : List α
  ctxPos : Int
  filePos : Int
  ret : Int
deriving DecidableEq

/-- `chunkfs_dir_llseek`: the offset is a position for `chunkfs_open_cont_file`, which translates it, and then the offset
    of the client's seek. The result goes through an `int`. --/
def dirLlseek (llseek : ClientFile → Int → Origin → Sought) (file : File) (offset : Int) (origin : Origin) :
    Kern (Int × File) := do
  match ← openContFile file offset with
  | .error e => return (e.ret, file)
  | .ok o =>
    let s := llseek o.file o.ppos origin
    let err := int32 s.ret
    let file ← closeContFile file { o.file with pos := s.pos } o.cont
    return (err, file)

/-- What `chunkfs_iterate` hands back. --/
structure Iterated (α : Type) where
  entries : List α
  ctxPos : Int
  ret : Int
  file : File

/-- `chunkfs_iterate`: the position that is translated is the file's own, and the client goes by `ctx->pos`. --/
def iterate {α : Type} (clientIterate : ClientFile → Int → Listing α) (file : File) (ctxPos : Int) : Kern (Iterated α) := do
  match ← openContFile file file.pos with
  | .error e => return { entries := [], ctxPos := ctxPos, ret := e.ret, file := file }
  | .ok o =>
    let file := { file with pos := o.ppos }
    let l := clientIterate o.file ctxPos
    let err := if l.ret = Errno.enodata.ret then 0 else l.ret
    let file ← closeContFile file { o.file with pos := l.filePos } o.cont
    return { entries := l.entries, ctxPos := l.ctxPos, ret := err, file := file }

/-- A process with a directory open, the entries it has been given and what its last call returned. --/
structure Reader (α : Type) where
  world : World
  file : File
  got : List α
  ret : Int

/-- `iterate_dir`: `ctx->pos` is the file's position, and the file's position is then `ctx->pos`. --/
def Reader.step {α : Type} (clientIterate : ClientFile → Int → Listing α) (s : Reader α) : Option (Reader α) :=
  match iterate clientIterate s.file s.file.pos s.world with
  | .ok r w => some { world := w, file := { r.file with pos := r.ctxPos }, got := s.got ++ r.entries, ret := r.ret }
  | .error _ _ => none

/-- A process with the client directory itself open. --/
structure ClientReader (α : Type) where
  file : ClientFile
  got : List α
  ret : Int

def ClientReader.step {α : Type} (clientIterate : ClientFile → Int → Listing α) (s : ClientReader α) : ClientReader α :=
  let l := clientIterate s.file s.file.pos
  { file := { s.file with pos := l.ctxPos }, got := s.got ++ l.entries, ret := l.ret }

end Chunkfs
