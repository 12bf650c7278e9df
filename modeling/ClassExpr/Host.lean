import ClassExpr.FileTree.Basic

set_option autoImplicit false

/-! What a program asks of the machine it runs on, as a record of operations, and the machine that
is a file tree on a disk with a given text to read and a clock that stands still. -/

namespace ClassExpr

structure Host (m : Type → Type) where
  /-- The sizes of the files to search in. -/
  survey : m (FileTree Nat)
  /-- The text of a file. -/
  read (path : String) : ExceptT FileFault m String
  makeDirectory (path : String) : ExceptT FileFault m Unit
  isDirectory (path : String) : m Bool
  /-- Makes an empty file, or a file empty that is there. -/
  create (path : String) : ExceptT FileFault m Unit
  /-- Puts a text at the end of a file. -/
  append (path text : String) : ExceptT FileFault m Unit
  /-- Waits until what a file holds is stored. -/
  sync (path : String) : ExceptT FileFault m Unit
  rename (source target : String) : ExceptT FileFault m Unit
  /-- The text that is given to the program besides its arguments. -/
  input : ExceptT FileFault m String
  /-- The date and time, as reports show it. -/
  now : m String
  /-- A count of milliseconds that goes up. -/
  clock : m Nat

structure Disk where
  /-- How many bytes can be put into a file at a time, if there is not room for all. -/
  room : Option Nat := none
  /-- Why nothing can be stored, if that is so. -/
  broken : Option FileFault := none
deriving Repr, DecidableEq

namespace Disk

def hasRoom (disk : Disk) (text : String) : Bool :=
  disk.room.all (text.utf8ByteSize ≤ ·)

def take (disk : Disk) (text : String) : ByteArray :=
  match disk.room with
  | none => text.toUTF8
  | some size => text.toUTF8.extract 0 size

end Disk

namespace Host

/-- Changes a tree, or leaves it alone if the change is refused. -/
def change {C : Type} (f : FileTree C → Except FileFault (FileTree C)) :
    ExceptT FileFault (StateM (FileTree C)) Unit :=
  fun tree =>
    match f tree with
    | .ok tree => (.ok (), tree)
    | .error cause => (.error cause, tree)

def decode (content : ByteArray) : Except FileFault String :=
  match String.fromUTF8? content with
  | some text => .ok text
  | none => .error .notUtf8

def ofTree (input : String) (disk : Disk := {}) : Host (StateM (FileTree ByteArray)) where
  survey := fun tree => (tree.map ByteArray.size, tree)
  read path := fun tree => ((tree.read path).bind decode, tree)
  makeDirectory path := change (·.makeDirectory path)
  isDirectory path := fun tree => (tree.isDirectory path, tree)
  create path := change (·.write path .empty)
  append path text := do
    change (·.modify path (· ++ disk.take text))
    if disk.hasRoom text then pure () else throw (.refused "no space left on device")
  sync _ :=
    match disk.broken with
    | none => pure ()
    | some cause => throw cause
  rename source target := change (·.rename source target)
  input := pure input
  now := pure ""
  clock := pure 0

end Host

end ClassExpr
