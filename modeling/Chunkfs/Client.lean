import Chunkfs.Lib.Decimal
import Chunkfs.Lib.Word

/-! The client file systems: one in each chunk, mounted by userland at `/chunk<id>`. A client inode is
    named by its chunk and its inode number; chunkfs numbers it with one unified number (`MAKE_UINO`) and
    keeps its continuation data in four extended attributes, as decimal text. -/

namespace Chunkfs

/-- An error code: `-code` is what the kernel function returns. --/
structure Errno where
  code : Nat
  pos : 0 < code
deriving DecidableEq

namespace Errno

def enoent : Errno := ⟨2, by decide⟩
def eio : Errno := ⟨5, by decide⟩
def enomem : Errno := ⟨12, by decide⟩
def eexist : Errno := ⟨17, by decide⟩
def einval : Errno := ⟨22, by decide⟩
def efbig : Errno := ⟨27, by decide⟩
def enospc : Errno := ⟨28, by decide⟩
def erange : Errno := ⟨34, by decide⟩
def enodata : Errno := ⟨61, by decide⟩

/-- The integer a function returns for the error. --/
def ret (e : Errno) : Int := -(e.code : Int)

theorem ret_neg (e : Errno) : e.ret < 0 := by
  have := e.pos
  simp only [ret]
  omega

theorem natCast_ne_ret (n : Nat) (e : Errno) : (n : Int) ≠ e.ret := by
  have := e.ret_neg
  omega

end Errno

/-- `MAX_NESTED_LINKS`: `saved_names` of a nameidata has one element more. --/
def maxNestedLinks : Nat := 8

/-! ### Unified inode numbers -/

/-- `UINO_TO_CHUNK_ID`: bits 28 to 31. --/
def uinoToChunkId (ino : Nat) : Nat := (ino &&& 0xF0000000) >>> 28

/-- `UINO_TO_INO`: the low 28 bits. --/
def uinoToIno (ino : Nat) : Nat := ino &&& 0x0FFFFFFF

/-- `MAKE_UINO`, in 64 bits. --/
@[irreducible] def makeUino (chunkId ino : Nat) : Nat := (chunkId <<< 28) % 2 ^ 64 ||| ino

/-- An inode of the client file system that lives in `chunk`. --/
structure ClientIno where
  chunk : Nat
  ino : Nat
deriving DecidableEq

namespace ClientIno

/-- The number chunkfs gives the inode. --/
def uino (c : ClientIno) : Nat := makeUino c.chunk c.ino

theorem uino_def (c : ClientIno) : makeUino c.chunk c.ino = c.uino := rfl

/-- The chunk and the inode number fit their fields of a unified number, which is not 0. --/
structure InRange (c : ClientIno) : Prop where
  chunk_pos : 1 ≤ c.chunk
  chunk_le : c.chunk ≤ 15
  ino_lt : c.ino < 2 ^ 28

end ClientIno

theorem makeUino_eq {chunk ino : Nat} (hc : chunk ≤ 15) (hi : ino < 2 ^ 28) :
    makeUino chunk ino = chunk * 2 ^ 28 + ino := by
  unfold makeUino
  have hs : chunk <<< 28 = chunk * 2 ^ 28 := Nat.shiftLeft_eq ..
  rw [Nat.mod_eq_of_lt (by omega), ← Nat.shiftLeft_add_eq_or_of_lt hi, hs]

theorem uinoToIno_eq_mod (n : Nat) : uinoToIno n = n % 2 ^ 28 := Nat.and_two_pow_sub_one_eq_mod n 28

theorem uinoToChunkId_eq (n : Nat) : uinoToChunkId n = n / 2 ^ 28 % 16 := by
  unfold uinoToChunkId
  rw [Nat.shiftRight_and_distrib, Nat.shiftRight_eq_div_pow]
  exact Nat.and_two_pow_sub_one_eq_mod (n / 2 ^ 28) 4

theorem uinoToIno_makeUino {chunk ino : Nat} (hc : chunk ≤ 15) (hi : ino < 2 ^ 28) :
    uinoToIno (makeUino chunk ino) = ino := by
  rw [uinoToIno_eq_mod, makeUino_eq hc hi]
  omega

theorem uinoToChunkId_makeUino {chunk ino : Nat} (hc : chunk ≤ 15) (hi : ino < 2 ^ 28) :
    uinoToChunkId (makeUino chunk ino) = chunk := by
  rw [uinoToChunkId_eq, makeUino_eq hc hi]
  omega

namespace ClientIno
variable {c d : ClientIno}

theorem InRange.uino_eq (h : c.InRange) : c.uino = c.chunk * 2 ^ 28 + c.ino := makeUino_eq h.chunk_le h.ino_lt

theorem InRange.chunkId_uino (h : c.InRange) : uinoToChunkId c.uino = c.chunk :=
  uinoToChunkId_makeUino h.chunk_le h.ino_lt

theorem InRange.ino_uino (h : c.InRange) : uinoToIno c.uino = c.ino := uinoToIno_makeUino h.chunk_le h.ino_lt

theorem InRange.uino_ne_zero (h : c.InRange) : c.uino ≠ 0 := by
  have := h.chunk_pos
  rw [h.uino_eq]
  omega

theorem InRange.uino_inj (h : c.InRange) (h' : d.InRange) (he : c.uino = d.uino) : c = d := by
  have hk : c.chunk = d.chunk := by rw [← h.chunkId_uino, ← h'.chunkId_uino, he]
  have hi : c.ino = d.ino := by rw [← h.ino_uino, ← h'.ino_uino, he]
  cases c
  cases d
  cases hk
  cases hi
  rfl

theorem InRange.uino_lt (h : c.InRange) : c.uino < 2 ^ 64 := by
  have h₁ := h.chunk_le
  have h₂ := h.ino_lt
  rw [h.uino_eq]
  omega

end ClientIno

/-! ### Client inodes -/

/-- The attributes that `fsstack_copy_attr_all` copies. --/
structure Attrs where
  mode : Nat
  uid : Nat
  gid : Nat
  rdev : Nat
  atime : Nat
  mtime : Nat
  ctime : Nat
  flags : Nat
  nlink : Nat
deriving DecidableEq

/-- The names of the continuation attributes, in the `user.` namespace. --/
inductive ContAttr where
  | next
  | prev
  | start
  | len
deriving DecidableEq

/-- `struct chunkfs_cont_data`. --/
structure ContData where
  next : Nat
  prev : Nat
  start : Nat
  len : Nat
deriving DecidableEq

/-- The value of one attribute. --/
def ContData.value (cd : ContData) : ContAttr → Nat
  | .next => cd.next
  | .prev => cd.prev
  | .start => cd.start
  | .len => cd.len

/-- Every value fits a 64-bit word. --/
def ContData.Fits (cd : ContData) : Prop := ∀ a, cd.value a < 2 ^ 64

theorem ContData.fits_mk {next prev start len : Nat} (hnext : next < 2 ^ 64) (hprev : prev < 2 ^ 64)
    (hstart : start < 2 ^ 64) (hlen : len < 2 ^ 64) : ContData.Fits ⟨next, prev, start, len⟩
  | .next => hnext
  | .prev => hprev
  | .start => hstart
  | .len => hlen

theorem ContData.Fits.withNext {cd : ContData} (h : cd.Fits) {n : Nat} (hn : n < 2 ^ 64) :
    ContData.Fits { cd with next := n }
  | .next => hn
  | .prev => h .prev
  | .start => h .start
  | .len => h .len

/-- The text chunkfs stores for a value: its decimal digits and the terminator. --/
def attrText (value : Nat) : List Char := Decimal.print value ++ ['\x00']

/-- The value chunkfs reads from a stored text, which it terminates first. --/
def attrValue (text : List Char) : Nat := Decimal.parse 64 (text ++ ['\x00'])

/-- The size of the buffer an attribute is read into. --/
def valueStrSize : Nat := 50

theorem attrValue_attrText {n : Nat} (h : n < 2 ^ 64) : attrValue (attrText n) = n := by
  unfold attrValue attrText
  rw [List.append_assoc]
  exact Decimal.parse_print h (by decide) ['\x00']

theorem length_attrText_le {n : Nat} (h : n < 2 ^ 64) : (attrText n).length ≤ 21 := by
  have : (Decimal.print n).length ≤ 20 := Decimal.length_print_le (by decide) (by omega)
  simp only [attrText, List.length_append, List.length_singleton]
  omega

/-- An inode of a client file system: its attributes, its data and its extended attributes. --/
structure ClientInode where
  attrs : Attrs
  size : Nat
  byte : Nat → UInt8
  xattr : ContAttr → Option (List Char)

namespace ClientInode

/-- The value of a continuation attribute, when it is there and fits the buffer. --/
def attr? (i : ClientInode) (a : ContAttr) : Option Nat :=
  match i.xattr a with
  | none => none
  | some text => if text.length ≤ valueStrSize then some (attrValue text) else none

/-- The continuation data, when all four attributes can be read. --/
def contData? (i : ClientInode) : Option ContData :=
  match i.attr? .next, i.attr? .prev, i.attr? .start, i.attr? .len with
  | some next, some prev, some start, some len => some ⟨next, prev, start, len⟩
  | _, _, _, _ => none

/-- Storing bytes under one name. --/
def setXattr (i : ClientInode) (a : ContAttr) (text : List Char) : ClientInode :=
  { i with xattr := fun b => if b = a then some text else i.xattr b }

/-- Writing bytes at a position: a gap behind the old end reads as zeros. --/
def writeData (i : ClientInode) (pos : Nat) (data : List UInt8) (now : Nat) : ClientInode :=
  if data = [] then i
  else
    { i with
      attrs := { i.attrs with mtime := now, ctime := now }
      size := max i.size (pos + data.length)
      byte := fun k =>
        if pos ≤ k ∧ k < pos + data.length then data.getD (k - pos) 0
        else if k < i.size then i.byte k
        else 0 }

/-- The bytes from `pos` on, at most `len` of them. --/
def readData (i : ClientInode) (pos len : Nat) : List UInt8 :=
  (List.range (min len (i.size - pos))).map fun k => i.byte (pos + k)

theorem contData?_eq_some {i : ClientInode} {cd : ContData} :
    i.contData? = some cd ↔ ∀ a, i.attr? a = some (cd.value a) := by
  constructor
  · intro h a
    unfold contData? at h
    split at h
    · rename_i next prev start len h₁ h₂ h₃ h₄
      cases h
      cases a <;> assumption
    · cases h
  · intro h
    unfold contData?
    rw [h .next, h .prev, h .start, h .len]
    rfl

/-- Nothing but the extended attributes decides the data. --/
theorem contData?_of_xattr {i j : ClientInode} (h : j.xattr = i.xattr) : j.contData? = i.contData? := by
  simp only [contData?, attr?, h]

theorem attr?_setXattr_same {i : ClientInode} {a : ContAttr} {n : Nat} (h : n < 2 ^ 64) :
    (i.setXattr a (attrText n)).attr? a = some n := by
  have := length_attrText_le h
  simp only [attr?, setXattr, ↓reduceIte, valueStrSize, attrValue_attrText h, ite_eq_left_iff]
  omega

@[simp] theorem contData?_writeData (i : ClientInode) (pos : Nat) (data : List UInt8) (now : Nat) :
    (i.writeData pos data now).contData? = i.contData? := by
  unfold writeData
  split <;> rfl

end ClientInode

end Chunkfs
