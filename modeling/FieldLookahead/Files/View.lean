import FieldLookahead.Files.Fault
import FieldLookahead.Files.Tree

/-! What a program sees of the files around it. -/

namespace FieldLookahead.Files

structure Found where
  name : String
  path : String
  deriving DecidableEq, Repr

/-- What a path leads to: a file, or a folder with the files below it. -/
inductive Walk where
  | file (found : Found)
  | folder (files : List Found)
  deriving DecidableEq, Repr

structure WalkFault where
  path : String
  fault : PathFault
  deriving DecidableEq, Repr

structure View where
  walk : String → Except WalkFault Walk
  read : String → Except ReadFault String

def textOf (path : String) (bytes : List UInt8) : Except ReadFault String :=
  (Text.Utf8.decode bytes).mapError (.undecodable path)

def lastName (path : String) : String := ((path.splitOn "/").getLast?).getD ""

/-- The part of a file's name after its last dot, if the dot does not begin the name. -/
def extension? (name : String) : Option String :=
  let characters := name.toList
  let after := (characters.reverse.takeWhile (· ≠ '.')).reverse
  if after.length + 1 < characters.length then some (String.ofList after) else none

def entryPath (path name : String) : String :=
  if path.toList.getLast? = some '/' then path ++ name else path ++ "/" ++ name

namespace Tree

mutual
/-- What a walk finds in an entry of a folder, if the entry stands at a place and the walk comes
to it by a path. The paths of folders are limited. -/
def filesOfEntry (path : String) (place : List String) (name : String) :
    Tree → Except WalkFault (List Found)
  | file _ => .ok [⟨name, absolutePath place⟩]
  | folder entries =>
    if pathLimit < path.utf8ByteSize then .error ⟨path, .tooLong⟩
    else filesOfEntries path place entries
  termination_by structural tree => tree

def filesOfEntries (path : String) (place : List String) :
    List (String × Tree) → Except WalkFault (List Found)
  | [] => .ok []
  | (name, tree) :: rest => do
    let found ← filesOfEntry (entryPath path name) (place ++ [name]) name tree
    return found ++ (← filesOfEntries path place rest)
  termination_by structural entries => entries
end

end Tree

namespace Workspace

def walk (workspace : Workspace) (path : String) : Except WalkFault Walk := do
  match ← (workspace.find path).mapError (⟨path, ·⟩) with
  | (place, .file _) => .ok (.file ⟨lastName path, absolutePath place⟩)
  | (place, .folder entries) => (Tree.filesOfEntries path place entries).map .folder

def read (workspace : Workspace) (path : String) : Except ReadFault String :=
  match workspace.find path with
  | .ok (_, .file bytes) => textOf path bytes
  | _ => .error (.notAFile path)

def view (workspace : Workspace) : View := ⟨workspace.walk, workspace.read⟩

end Workspace
end FieldLookahead.Files
