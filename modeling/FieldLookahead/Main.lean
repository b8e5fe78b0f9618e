import FieldLookahead.Command.Expand

/-! The command line: looks at the files that the arguments name, and runs the program on what it
has seen. -/

open FieldLookahead

namespace FieldLookahead.Command

def pathFault : IO.Error → Files.PathFault
  | .noFileOrDirectory .. => .noEntry
  | .inappropriateType .. => .notAFolder
  | .invalidArgument _ 36 _ => .tooLong
  | error => .other (toString error)

def check (path : String) : IO Unit := discard (IO.FS.Handle.mk path .read)

partial def filesBelow (path : String) : IO (Except Files.WalkFault (List Files.Found)) := do
  if Files.pathLimit < path.utf8ByteSize then return .error ⟨path, .tooLong⟩
  let mut found := []
  for entry in ← (← IO.FS.realPath path).readDir do
    let place ← IO.FS.realPath entry.path
    if ← place.isDir then
      match ← filesBelow (Files.entryPath path entry.fileName) with
      | .ok inner => found := found ++ inner
      | .error fault => return .error fault
    else found := found ++ [⟨entry.fileName, place.toString⟩]
  return .ok found

def walk (path : String) : IO (Except Files.WalkFault Files.Walk) := do
  try
    check path
    let place ← IO.FS.realPath path
    if ← place.isDir then return (← filesBelow path).map .folder
    else return .ok (.file ⟨Files.lastName path, place.toString⟩)
  catch error => return .error ⟨path, pathFault error⟩

def read (path : String) : IO (Except Files.ReadFault String) := do
  try
    check path
    let place ← IO.FS.realPath path
    if ← place.isDir then return .error (.notAFile path)
    else
      let bytes ← IO.FS.readBinFile place
      return Files.textOf path bytes.toList
  catch error =>
    match pathFault error with
    | .other reason => return .error (.unreadable path reason)
    | _ => return .error (.notAFile path)

def look {ε α : Type} (at? : String → IO (Except ε α)) (paths : List String) :
    IO (List (String × Except ε α)) :=
  paths.mapM fun path => return (path, ← at? path)

def viewOf (walks : List (String × Except Files.WalkFault Files.Walk))
    (texts : List (String × Except Files.ReadFault String)) : Files.View where
  walk path := (Assoc.get? path walks).getD (.error ⟨path, .noEntry⟩)
  read path := (Assoc.get? path texts).getD (.error (.notAFile path))

def viewFor (arguments : List String) : IO Files.View := do
  match Invocation.ofArguments arguments with
  | .expand options =>
    let walks ← look walk options.schemas
    let schemas := (options.schemaFiles (viewOf walks [])).toOption.getD []
    return viewOf walks (← look read (options.query :: schemas))
  | _ => return viewOf [] []

end FieldLookahead.Command

def main (arguments : List String) : IO UInt32 := do
  let outcome := Command.run (← Command.viewFor arguments) arguments
  IO.print outcome.stdout
  IO.eprint outcome.stderr
  return outcome.exit.toUInt32
