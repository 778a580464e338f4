/-! # Paths

A path is kept as it is written, since messages show it that way, and compared by its components.
Repeated and trailing separators and inner dots make no difference.
-/

namespace CheckpointRestart

structure Path where
  text : String
  deriving DecidableEq, Repr, Inhabited

namespace Path

instance : ToString Path := ⟨text⟩

/-- The empty path, which names the top of a storage. -/
def top : Path :=
  ⟨""⟩

/-- The pieces between separators, one more than there are separators. -/
def pieces : List Char → List (List Char)
  | [] => [[]]
  | c :: rest =>
    if c = '/' then [] :: pieces rest
    else match pieces rest with
      | [] => [[c]]
      | piece :: more => (c :: piece) :: more

/-- The pieces of a path as written. -/
def rawPieces (p : Path) : List String :=
  (pieces p.text.toList).map String.ofList

/-- The components of a path. The first one is empty if the path starts at the root; it may be a
dot, which the others may not. -/
def components (p : Path) : List String :=
  if p.text.isEmpty then []
  else match p.rawPieces with
    | [] => []
    | first :: rest => first :: rest.filter fun s => s ≠ "" ∧ s ≠ "."

def isAbsolute (p : Path) : Bool :=
  p.text.startsWith "/"

/-- The path of `name` inside the directory `p`. No separator is added behind an empty path or one
that ends in a separator, and an absolute name stands for itself. -/
def join (p : Path) (name : String) : Path :=
  if (⟨name⟩ : Path).isAbsolute then ⟨name⟩
  else if p.text.isEmpty ∨ p.text.endsWith "/" then ⟨p.text ++ name⟩
  else ⟨p.text ++ "/" ++ name⟩

end Path

end CheckpointRestart
