import CheckpointRestart.Storage.Basic
import Std.Data.ExtTreeMap

/-! # File trees

A tree of directories and files with the rules of a file system: every step of a path but the last
must lead to a directory, `..` leads back, and a path that ends in a separator names a directory.
The parent of the top is the top. Names and paths are limited in their numbers of bytes.
-/

namespace CheckpointRestart

inductive FileNode where
  | directory
  | file (contents : Bytes)
  deriving DecidableEq, Repr

structure FileTree where
  /-- The nodes below the top, under the names that lead to them. -/
  nodes : Std.ExtTreeMap (List String) FileNode
  /-- The directory that relative paths start from. -/
  home : List String

namespace FileTree

def empty : FileTree :=
  ⟨∅, []⟩

instance : EmptyCollection FileTree := ⟨empty⟩

instance : Inhabited FileTree := ⟨empty⟩

def nameLimit : Nat := 255

def pathLimit : Nat := 4095

def node? (t : FileTree) (place : List String) : Option FileNode :=
  if place.isEmpty then some .directory else t.nodes[place]?

def put (t : FileTree) (place : List String) (node : FileNode) : FileTree :=
  { t with nodes := t.nodes.insert place node }

/-- Where the first step of a path is taken from. -/
def start (t : FileTree) (p : Path) : List String :=
  if p.isAbsolute then [] else t.home

/-- Where a step leads to from a directory. -/
def follow (place : List String) (step : String) : List String :=
  if step = "" ∨ step = "." then place
  else if step = ".." then place.dropLast
  else place ++ [step]

/-- Whether a step is the name of something inside the directory it is taken from. -/
def isName (step : String) : Bool :=
  step ≠ "" && step ≠ "." && step ≠ ".."

/-- Goes one step from a directory to a directory. -/
def enter (t : FileTree) (place : List String) (step : String) :
    Except SystemFault (List String) :=
  if isName step && nameLimit < step.utf8ByteSize then .error .nameTooLong
  else match t.node? (follow place step) with
    | some .directory => .ok (follow place step)
    | some (.file _) => .error .notDirectory
    | none => .error .noEntry

/-- Where a path leads. -/
structure Target where
  /-- The directory that the last step is taken from. -/
  parent : List String
  /-- The last step, if it is a name. -/
  name : Option String
  /-- Whether only a directory will do. -/
  asDirectory : Bool

/-- Follows a path up to its last step. Separators at the end are not steps. -/
def locate (t : FileTree) (p : Path) : Except SystemFault Target := do
  if p.text.toList.contains '\x00' then
    throw .zeroByte
  if pathLimit < p.text.utf8ByteSize then
    throw .nameTooLong
  if p.text.isEmpty then
    throw .noEntry
  let steps := p.rawPieces.reverse.dropWhile (·.isEmpty)
  let asDirectory := steps.length < p.rawPieces.length
  match steps with
  | [] => return ⟨[], none, true⟩
  | last :: before =>
    let parent ← before.reverse.foldlM t.enter (t.start p)
    if isName last then
      return ⟨parent, some last, asDirectory⟩
    else
      return ⟨← t.enter parent last, none, true⟩

namespace Target

def place (target : Target) : List String :=
  target.parent ++ target.name.toList

end Target

/-- What is where a path leads, if anything is. -/
def occupant (t : FileTree) (target : Target) : Except SystemFault (Option FileNode) :=
  if target.name.any (nameLimit < ·.utf8ByteSize) then .error .nameTooLong
  else .ok (t.node? target.place)

def lookup (t : FileTree) (p : Path) : Except SystemFault FileNode := do
  let target ← t.locate p
  match ← t.occupant target with
  | none => throw .noEntry
  | some .directory => return .directory
  | some (.file contents) =>
    if target.asDirectory then throw .notDirectory else return .file contents

def createDirectory (p : Path) (t : FileTree) : Except SystemFault FileTree := do
  let target ← t.locate p
  if (← t.occupant target).isSome then
    throw .alreadyExists
  return t.put target.place .directory

/-- Creates or replaces a file. A path that asks for a directory is refused before it is known what
it names. -/
def write (p : Path) (contents : Bytes) (t : FileTree) : Except SystemFault FileTree := do
  let target ← t.locate p
  if target.asDirectory then
    throw .isDirectory
  match ← t.occupant target with
  | some .directory => throw .isDirectory
  | _ => return t.put target.place (.file contents)

def read (p : Path) (t : FileTree) : Except SystemFault Bytes := do
  match ← t.lookup p with
  | .directory => throw .isDirectory
  | .file contents => return contents

def directoriesIn (p : Path) (t : FileTree) : Except SystemFault (List String) := do
  match ← t.lookup p with
  | .file _ => throw .notDirectory
  | .directory =>
    let place := (← t.locate p).place
    return t.nodes.toList.filterMap fun (key, node) =>
      if key.dropLast = place ∧ node = .directory then key.getLast? else none

def contains (p : Path) (t : FileTree) : Bool :=
  (t.lookup p).isOk

/-- Makes the directory that some steps lead to, with all that is missing on the way there. -/
def pave (t : FileTree) (place : List String) : List String → FileTree × List String
  | [] => (t, place)
  | step :: steps =>
    let next := follow place step
    pave (if (t.node? next).isSome then t else t.put next .directory) next steps

/-- Puts a file at the end of a path, with all directories that are missing on the way there. -/
def plant (p : Path) (contents : Bytes) (t : FileTree) : FileTree :=
  let (t, place) := t.pave (t.start p) p.rawPieces.dropLast
  t.put (place ++ p.rawPieces.getLast?.toList) (.file contents)

/-- A tree with nothing in it but the directory that relative paths start from. -/
def within (home : List String) : FileTree :=
  { (pave ∅ [] home).1 with home }

end FileTree

/-- A directory of a file tree, used as a storage. -/
structure Subtree where
  root : Path
  tree : FileTree
  deriving Inhabited

namespace Subtree

def resolve (s : Subtree) (p : Path) : Path :=
  s.root.join p.text

/-- Makes an error of the file tree one of the storage. -/
def lift {α : Type} (r : Except SystemFault α) : Except StorageError α :=
  r.mapError .system

instance : Storage Subtree where
  createDirectory p s :=
    lift ((s.tree.createDirectory (s.resolve p)).map fun tree => { s with tree })
  write p contents s :=
    lift ((s.tree.write (s.resolve p) contents).map fun tree => { s with tree })
  read p s := lift (s.tree.read (s.resolve p))
  directoriesIn p s := lift (s.tree.directoriesIn (s.resolve p))
  contains p s := s.tree.contains (s.resolve p)

end Subtree

end CheckpointRestart
