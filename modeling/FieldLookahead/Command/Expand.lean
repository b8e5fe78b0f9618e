import FieldLookahead.Command.Arguments
import FieldLookahead.Files.View
import FieldLookahead.Plan.Basic
import FieldLookahead.Query.Reader

/-! The command that prints what the field positions of a query request. -/

namespace FieldLookahead.Command

structure Outcome where
  exit : Nat
  stdout : String
  stderr : String
  deriving DecidableEq, Repr

inductive Fault where
  | unscannable (path : String) (fault : Files.WalkFault)
  | noSchemaFiles (paths : List String)
  | schema (fault : Schema.Fault)
  | unreadableQuery (path : String) (fault : Files.ReadFault)
  | unparsableQuery (path : String)
  | plan (fault : Plan.Fault)
  | unknownPosition (position : String) (known : List String)
  deriving DecidableEq, Repr

def Fault.message : Fault → String
  | unscannable path ⟨place, fault⟩ =>
    "scanning schema path " ++ Text.literal path ++ ": IO error for operation on " ++ place ++
      ": " ++ fault.message ++ ": " ++ fault.message
  | noSchemaFiles paths =>
    "no schema files found under " ++ Text.listing (paths.map Text.literal)
  | schema fault => fault.message
  | unreadableQuery path fault =>
    "reading query file " ++ Text.literal path ++ ": " ++ fault.message
  | unparsableQuery path =>
    "parsing query file " ++ Text.literal path ++ ": query parse error:"
  | plan fault => fault.message
  | unknownPosition position known =>
    "no field position named `" ++ position ++ "` (known positions: " ++
      String.intercalate ", " known ++ ")"

namespace Options

/-- Whether a file's extension is one of those that count; dots before them do not matter. -/
def accepts (options : Options) (found : Files.Found) : Bool :=
  let extensions := options.extensions.map fun extension =>
    String.ofList (extension.toList.dropWhile (· = '.'))
  match Files.extension? found.name with
  | none => false
  | some extension => extensions.contains extension

def filesOf : Files.Walk → List Files.Found
  | .file found => [found]
  | .folder files => files

/-- The paths of the schema files. A file that is given alone counts whatever its extension. -/
def schemaFiles (options : Options) (view : Files.View) : Except Fault (List String) := do
  let walks ← options.schemas.mapM fun path => (view.walk path).mapError (.unscannable path)
  match (walks.flatMap filesOf).filter options.accepts, walks with
  | [], [.file found] => .ok [found.path]
  | [], _ => .error (.noSchemaFiles options.schemas)
  | found, _ => .ok (found.map (·.path))

end Options

def addFile (view : Files.View) (draft : Schema.Draft) (path : String) :
    Except Schema.Fault Schema.Draft := do
  let text ← (view.read path).mapError .unreadable
  draft.addText (some path) text

def schemaOfFiles (view : Files.View) (paths : List String) : Except Schema.Fault Schema := do
  let draft ← paths.foldlM (addFile view) .empty
  Schema.ofDraft draft

def report (plan : Plan) (position? : Option String) : Except Fault Json :=
  match position? with
  | none => .ok (.object (plan.entries.entries.map fun (position, entry) =>
      (position, entry.lookahead.toJson)))
  | some position =>
    match plan.entries.get? position with
    | some entry => .ok entry.lookahead.toJson
    | none => .error (.unknownPosition position plan.entries.keys)

def expand (view : Files.View) (options : Options) : Except Fault Json := do
  let paths ← options.schemaFiles view
  let schema ← (schemaOfFiles view paths).mapError .schema
  let text ← (view.read options.query).mapError (.unreadableQuery options.query)
  match Query.Document.ofText? text with
  | none => .error (.unparsableQuery options.query)
  | some document =>
    let plan ← (Plan.ofDocument schema document options.operation?).mapError .plan
    report plan options.position?

def versionText : String := "graphql-jit 0.0.1\n"

def usageText : String :=
  "Usage: graphql-jit [-v] [--version] expand --schema PATH... [--graphql-file-exts EXTS]\n" ++
    "         [--operation NAME] [--position POSITION] QUERY_FILE\n"

def run (view : Files.View) (arguments : List String) : Outcome :=
  match Invocation.ofArguments arguments with
  | .help => ⟨0, usageText, ""⟩
  | .version => ⟨0, versionText, ""⟩
  | .refused => ⟨2, "", usageText⟩
  | .expand options =>
    match expand view options with
    | .ok json => ⟨0, json.sortKeys.pretty "" ++ "\n", ""⟩
    | .error fault =>
      ⟨1, "", "❌ failed to expand " ++ Text.literal options.query ++ ": " ++ fault.message ++ "\n"⟩

end FieldLookahead.Command
