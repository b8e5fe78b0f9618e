import FieldLookahead.OrderedMap

/-! Trees of folders and files, and how a path leads through one. -/

namespace FieldLookahead.Files

inductive Tree where
  | file (bytes : List UInt8)
  | folder (entries : List (String × Tree))

inductive PathFault where
  | noEntry
  | notAFolder
  | tooLong
  | other (reason : String)
  deriving DecidableEq, Repr

def PathFault.message : PathFault → String
  | noEntry => "No such file or directory (os error 2)"
  | notAFolder => "Not a directory (os error 20)"
  | tooLong => "File name too long (os error 36)"
  | other reason => reason

def nameLimit : Nat := 255

def pathLimit : Nat := 4095

namespace Tree

def emptyFolder : Tree := folder []

def at? (tree : Tree) : List String → Option Tree
  | [] => some tree
  | name :: rest =>
    match tree with
    | file _ => none
    | folder entries => (Assoc.get? name entries).bind (at? · rest)

/-- Puts a file or a folder at the end of a chain of names, with folders on the way to it. A
folder that is there already keeps its entries. -/
def put (tree : Tree) : List String → Tree → Tree
  | [], leaf =>
    match leaf, tree with
    | folder [], folder entries => folder entries
    | _, _ => leaf
  | name :: rest, leaf =>
    let entries := match tree with
      | folder entries => entries
      | file _ => []
    let inner := (Assoc.get? name entries).getD emptyFolder
    folder (Assoc.insert name (inner.put rest leaf) entries)

/-- One step of a path from a place, given by the names that lead to it. -/
def step (tree : Tree) (place : List String) (component : String) :
    Except PathFault (List String) :=
  match tree.at? place with
  | some (folder entries) =>
    if component = "" || component = "." then .ok place
    else if component = ".." then .ok place.dropLast
    else if nameLimit < component.utf8ByteSize then .error .tooLong
    else if (Assoc.get? component entries).isSome then .ok (place ++ [component])
    else .error .noEntry
  | _ => .error .notAFolder

end Tree

/-- A tree with the folder from which relative paths lead. -/
structure Workspace where
  tree : Tree
  current : List String

namespace Workspace

def place (workspace : Workspace) (path : String) : Except PathFault (List String) :=
  if path = "" then .error .noEntry
  else if pathLimit < path.utf8ByteSize then .error .tooLong
  else
    let start := if path.toList.head? = some '/' then [] else workspace.current
    (path.splitOn "/").foldlM workspace.tree.step start

def find (workspace : Workspace) (path : String) : Except PathFault (List String × Tree) := do
  let place ← workspace.place path
  match workspace.tree.at? place with
  | some tree => .ok (place, tree)
  | none => .error .noEntry

end Workspace

def absolutePath (place : List String) : String := "/" ++ String.intercalate "/" place

end FieldLookahead.Files
