import Chunkfs.Namei

/-! Making an object for a name (`namei.c`), with the two dentries that stand for the name: the chunkfs dentry and its
    client dentry, which both have no inode before. -/

namespace Chunkfs

/-- The world, and `d_inode` of the chunkfs dentry and of its client dentry. --/
structure Naming where
  world : World
  inode : Option Nat
  client : Option ClientIno

abbrev Name := EStateM Stop Naming

namespace Naming

/-- A call that has nothing to do with the dentries. --/
def onWorld {α : Type} (m : Kern α) : Name α := fun s =>
  match m s.world with
  | .ok a w => .ok a { s with world := w }
  | .error e w => .error e { s with world := w }

/-- `chunkfs_new_inode`. `bad` says whether the inode is a bad one, which is left to nobody. --/
def newInode (bad : Bool) : Name (Except Errno Nat) := do
  let v ← onWorld Chunkfs.newInode
  if bad then return .error .eio else return .ok v

/-- The operation of the client directory, which puts the new inode into the client dentry. --/
def clientMake (dir : ClientIno) (name : List Char) (o : NewObject) (links : Nat) : Name (Except Errno ClientIno) := do
  match ← onWorld (Chunkfs.clientMake dir name o links) with
  | .error e => return .error e
  | .ok c =>
    modify fun s => { s with client := some c }
    return .ok c

/-- The common body of the four operations, for a negative dentry. --/
def make (dir : Nat) (name : List Char) (o : NewObject) (links : Nat) (bad : Bool) : Name (Except Errno Unit) := do
  let dirInode ← onWorld (vnodeAt dir)
  match dirInode.client with
  | none => throw .oops
  | some clientDir =>
    let chunkId := uinoToChunkId dirInode.ino
    match ← newInode bad with
    | .error e => return .error e
    | .ok v =>
      onWorld (copyDownNd o.nd)
      match ← clientMake clientDir name o links with
      | .error e =>
        onWorld (iput v)
        return .error e
      | .ok c =>
        match ← onWorld (initContData c) with
        | .error e =>
          onWorld (iput v)
          return .error e
        | .ok _ =>
          onWorld (startInode v c chunkId)
          onWorld (copyUpInode dir clientDir)
          modify fun s => { s with inode := some v }
          return .ok ()

def create (dir : Nat) (name : List Char) (mode : Nat) (bad : Bool) : Name (Except Errno Unit) :=
  make dir name { mode := mode, rdev := 0, nlink := 1, data := [], size := 0, nd := true } 0 bad

def mkdir (dir : Nat) (name : List Char) (mode : Nat) (bad : Bool) : Name (Except Errno Unit) :=
  make dir name { mode := 0o040000 ||| mode, rdev := 0, nlink := 2, data := [], size := 4096, nd := false } 1 bad

def symlink (dir : Nat) (name : List Char) (oldname : List UInt8) (bad : Bool) : Name (Except Errno Unit) :=
  make dir name { mode := 0o120777, rdev := 0, nlink := 1, data := oldname, size := oldname.length, nd := false } 0 bad

def mknod (dir : Nat) (name : List Char) (mode dev : Nat) (bad : Bool) : Name (Except Errno Unit) :=
  make dir name { mode := mode, rdev := dev, nlink := 1, data := [], size := 0, nd := false } 0 bad

end Naming

/-- The operations that make an object. --/
inductive Making where
  | create (mode : Nat)
  | mkdir (mode : Nat)
  | symlink (oldname : List UInt8)
  | mknod (mode dev : Nat)

def Making.call (dir : Nat) (name : List Char) (bad : Bool) : Making → Name (Except Errno Unit)
  | .create mode => Naming.create dir name mode bad
  | .mkdir mode => Naming.mkdir dir name mode bad
  | .symlink oldname => Naming.symlink dir name oldname bad
  | .mknod mode dev => Naming.mknod dir name mode dev bad

end Chunkfs
