import CheckpointRestart.Storage.Basic
import Std.Data.ExtTreeMap
import Std.Data.ExtTreeSet

/-! # Storage in memory

Directories and files are kept under the components of their paths. The top is not itself a
member, but it is always there as a parent.
-/

namespace CheckpointRestart

/-- A file with the path it was first written to. -/
structure StoredFile where
  path : Path
  contents : Bytes
  deriving DecidableEq, Repr

structure InMemory where
  directories : Std.ExtTreeSet (List String)
  files : Std.ExtTreeMap (List String) StoredFile

namespace InMemory

def empty : InMemory :=
  ⟨∅, ∅⟩

instance : EmptyCollection InMemory := ⟨empty⟩

instance : Inhabited InMemory := ⟨empty⟩

/-- Whether a path with these components may be added. -/
def hasParent (s : InMemory) (components : List String) : Bool :=
  match components.dropLast with
  | [] => true
  | parent => s.directories.contains parent

def contains (p : Path) (s : InMemory) : Bool :=
  s.directories.contains p.components || s.files.contains p.components

def createDirectory (p : Path) (s : InMemory) : Except StorageError InMemory :=
  if s.contains p then .error (.occupied p)
  else if s.hasParent p.components then
    .ok { s with directories := s.directories.insert p.components }
  else .error (.missing p)

def write (p : Path) (contents : Bytes) (s : InMemory) : Except StorageError InMemory :=
  let key := p.components
  if s.directories.contains key || !s.hasParent key then .error (.missing p)
  else
    let path := match s.files[key]? with
      | some old => old.path
      | none => p
    .ok { s with files := s.files.insert key ⟨path, contents⟩ }

def read (p : Path) (s : InMemory) : Except StorageError Bytes :=
  match s.files[p.components]? with
  | some file => .ok file.contents
  | none => .error (.missing p)

/-- The name of a directory right inside `parent`. Dots are no names. -/
def nameIn? (parent components : List String) : Option String :=
  if components.dropLast = parent then
    components.getLast?.filter fun name => name ≠ "" ∧ name ≠ "." ∧ name ≠ ".."
  else none

def directoriesIn (p : Path) (s : InMemory) : Except StorageError (List String) :=
  if p.text.isEmpty || s.directories.contains p.components then
    .ok (s.directories.toList.filterMap (nameIn? p.components))
  else .error (.missing p)

def remove (p : Path) (s : InMemory) : Option Bytes × InMemory :=
  match s.files[p.components]? with
  | some file => (some file.contents, { s with files := s.files.erase p.components })
  | none => (none, s)

instance : Storage InMemory where
  createDirectory := createDirectory
  write := write
  read := read
  directoriesIn := directoriesIn
  contains := contains

end InMemory

end CheckpointRestart
