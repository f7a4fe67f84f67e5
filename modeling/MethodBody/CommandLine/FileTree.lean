import MethodBody.Failure

namespace MethodBody

/-- Files kept in memory, for a run that touches no disk. -/
inductive FileTree where
  | file (content : ByteArray)
  | folder (entries : List (String × FileTree))

def pathLimit : Nat := 4096

def nameLimit : Nat := 255

/-- A node of a tree with the folders above it, the nearest first. -/
structure Place where
  node : FileTree
  above : List FileTree

namespace Place

/-- The folder above, which for the top of the tree is the top itself. -/
def up (p : Place) : Place :=
  match p.above with
  | [] => p
  | node :: above => ⟨node, above⟩

def top (p : Place) : Place :=
  ⟨p.above.getLast?.getD p.node, []⟩

/-- Follows one name of a path. A file leads nowhere, not even by the name after a last slash. -/
def follow (p : Place) (name : String) : Except FileFault Place :=
  match p.node with
  | .file _ => .error .notDirectory
  | .folder entries =>
    if name = "" ∨ name = "." then .ok p
    else if name = ".." then .ok p.up
    else if nameLimit < name.utf8ByteSize then .error .nameTooLong
    else
      match entries.lookup name with
      | some node => .ok ⟨node, p.node :: p.above⟩
      | none => .error .missing

/-- Reads the file at a path, which starts from the top if it begins with a slash. -/
def read (p : Place) (path : String) : Except FileFault ByteArray := do
  if path.isEmpty then .error .missing
  if pathLimit ≤ path.utf8ByteSize then .error .nameTooLong
  let start := if path.startsWith "/" then p.top else p
  let place ← (path.splitOn "/").foldlM follow start
  match place.node with
  | .file content => return content
  | .folder _ => .error .isDirectory

end Place

end MethodBody
