import Chunkfs.Dir

/-! Seeking in a regular file (`chunkfs_llseek_file`), which looks at the chunkfs inode only, and a process that appends by
    seeking to the end. -/

namespace Chunkfs
open Word

/-- The end of `default_llseek`: a negative position is refused. --/
def File.setpos (file : File) (offset : Int) : Int × File :=
  if 0 ≤ offset then (offset, { file with pos := offset }) else (Errno.einval.ret, file)

/-- `default_llseek` of a file of `size` bytes. --/
def defaultLlseek (size : Int) (file : File) (offset : Int) : Origin → Int × File
  | .set => file.setpos offset
  | .cur => if offset = 0 then (file.pos, file) else file.setpos (s64 (offset + file.pos))
  | .fromEnd => file.setpos (s64 (offset + size))
  | .data => if size ≤ offset then (Errno.enxio.ret, file) else file.setpos offset
  | .hole => if size ≤ offset then (Errno.enxio.ret, file) else file.setpos size

/-- `chunkfs_llseek_file`. --/
def llseekFile (file : File) (offset : Int) (origin : Origin) : Kern (Int × File) := do
  let vn ← vnodeAt file.dentry.inode
  return defaultLlseek vn.size file offset origin

/-- `lseek(2)` to the end and `write(2)`, which stores the position that comes back. --/
def appendRecord (file : File) (data : List UInt8) : Kern IoResult := do
  let (_, file) ← llseekFile file 0 .fromEnd
  let r ← write file data file.pos
  return { r with file := { r.file with pos := r.ppos } }

end Chunkfs
