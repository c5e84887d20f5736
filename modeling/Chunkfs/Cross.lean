import Chunkfs.Cont
import Chunkfs.Lib.Text

/-! The cross-chunk check (`cross.sh`): three chunks, mounted at `/chunk1` to `/chunk3`, and a file
    `/chunk<T>/<F>/<I>` for each inode `I` of chunk `F` that is continued in chunk `T`. The script asks `debugfs` for
    the inode a file continues, and removes the file if `grep` finds no answer. -/

namespace Chunkfs

/-- The chunks that the script goes through. --/
def chunkIds : List Nat := [1, 2, 3]

/-- A continuation file: its name, and the inode it has in its own chunk. --/
structure ContFile where
  toChunk : Nat
  fromChunk : Nat
  fromIno : Nat
  ino : Nat
deriving DecidableEq

def ContFile.path (f : ContFile) : List Char := contPath f.toChunk f.fromChunk f.fromIno

/-- The chunks as the script finds them: the continuation files, and which inodes are allocated in which chunk. --/
structure Chunks where
  files : List ContFile
  allocated : Nat → Nat → Bool
  places : ∀ f ∈ files, f.toChunk ∈ chunkIds ∧ f.fromChunk ∈ chunkIds
  nodup : (files.map ContFile.path).Nodup

namespace Chunks

/-- `ls /chunk<toChunk>/<fromChunk>/*`. The list order stands for the order in which the shell expands the pattern; where
    nothing matches, `ls` complains to its error output only. --/
def ls (s : Chunks) (toChunk fromChunk : Nat) : List Char :=
  Text.unlines ((s.files.map ContFile.path).filter fun p => dirname p = contDir toChunk fromChunk)

/-- `rm` removes the name, and with its only name a file gives up its inode. --/
def rm (s : Chunks) (path : List Char) : Chunks where
  files := s.files.filter fun f => f.path ≠ path
  allocated k i := s.allocated k i && !s.files.any fun f => f.path = path && f.toChunk = k && f.ino = i
  places f hf := s.places f (List.mem_filter.mp hf).1
  nodup := s.nodup.sublist (List.filter_sublist.map ContFile.path)

end Chunks

/-- `echo testi \<${i}\>`. --/
def echoTesti (i : List Char) : List Char := "testi <".toList ++ i ++ ">\n".toList

def marked : List Char := "marked".toList

/-- `debugfs` on a device, from the inodes allocated there and its input to its output. It answers `testi <N>` with a
    line that has `marked` in it if inode `N` is allocated; an absolute path is not a number. --/
structure Debugfs where
  run : (Nat → Bool) → List Char → List Char
  testi_number : ∀ inodes n,
    (∃ line ∈ Text.lines (run inodes (echoTesti (Decimal.print n))), marked <:+: line) ↔ inodes n = true
  testi_path : ∀ inodes path, ¬∃ line ∈ Text.lines (run inodes (echoTesti ('/' :: path))), marked <:+: line

namespace Debugfs
variable (g : Debugfs)

/-- The status of `echo testi \<${i}\> | debugfs /dev/loop${from_chunk} | grep marked`. --/
def status (fromChunk : Nat) (s : Chunks) (i : List Char) : Nat :=
  Text.grep marked (g.run (s.allocated fromChunk) (echoTesti i))

/-- The body of the innermost loop. --/
def check (fromChunk : Nat) (s : Chunks) (i : List Char) : Chunks := if g.status fromChunk s i = 1 then s.rm i else s

/-- The innermost loop: what `ls` prints is split into words. --/
def checkDir (fromChunk : Nat) (s : Chunks) (toChunk : Nat) : Chunks :=
  (Text.words (s.ls toChunk fromChunk)).foldl (g.check fromChunk) s

def cross (s : Chunks) : Chunks :=
  chunkIds.foldl (fun s fromChunk => chunkIds.foldl (fun s toChunk => g.checkDir fromChunk s toChunk) s) s

end Debugfs

end Chunkfs
