/-! The arguments of the command line. -/

namespace FieldLookahead.Command

/-- What to expand: schema files or folders, which files of a folder count, the query file, and
perhaps one operation and one position. -/
structure Options where
  schemas : List String
  extensions : List String
  operation? : Option String
  position? : Option String
  query : String
  deriving DecidableEq, Repr

inductive Invocation where
  | expand (options : Options)
  | help
  | version
  | refused
  deriving DecidableEq, Repr

structure Given where
  schemas : List String
  extensions? : Option (List String)
  operation? : Option String
  position? : Option String
  query? : Option String

namespace Given

def empty : Given := ⟨[], none, none, none, none⟩

def takesValue (name : String) : Bool :=
  ["schema", "graphql-file-exts", "operation", "position"].contains name

/-- Takes the value of an option. Paths must not be empty, and a single operation or position
must not come twice. -/
def take? (given : Given) (name value : String) : Option Given :=
  match name with
  | "schema" =>
    if value = "" then none else some { given with schemas := given.schemas ++ [value] }
  | "graphql-file-exts" =>
    some { given with extensions? := some (given.extensions?.getD [] ++ value.splitOn ",") }
  | "operation" =>
    if given.operation?.isSome then none else some { given with operation? := some value }
  | "position" =>
    if given.position?.isSome then none else some { given with position? := some value }
  | _ => none

def takeQuery? (given : Given) (path : String) : Option Given :=
  if given.query?.isSome || path = "" then none else some { given with query? := some path }

def invocation (given : Given) : Invocation :=
  match given.schemas, given.query? with
  | _ :: _, some query =>
    .expand ⟨given.schemas, given.extensions?.getD ["graphql", "graphqls"], given.operation?,
      given.position?, query⟩
  | _, _ => .refused

def readPaths (given : Given) : List String → Invocation
  | [] => given.invocation
  | path :: rest =>
    match given.takeQuery? path with
    | some given => given.readPaths rest
    | none => .refused

end Given

inductive Form where
  | long (name : String) (value? : Option String)
  | short (letters : List Char)
  | endOfOptions
  | plain (text : String)
  deriving DecidableEq, Repr

def Form.ofArgument (argument : String) : Form :=
  match argument.toList with
  | ['-', '-'] => .endOfOptions
  | '-' :: '-' :: rest =>
    let name := rest.takeWhile (· ≠ '=')
    let after := rest.drop name.length
    .long (String.ofList name)
      (match after with
        | [] => none
        | _ :: value => some (String.ofList value))
  | ['-'] => .plain argument
  | '-' :: letters => .short letters
  | _ => .plain argument

def readExpand (given : Given) : List String → Invocation
  | [] => given.invocation
  | argument :: rest =>
    match Form.ofArgument argument with
    | .endOfOptions => given.readPaths rest
    | .short letters => if letters.head? = some 'h' then .help else .refused
    | .plain path =>
      match given.takeQuery? path with
      | some given => readExpand given rest
      | none => .refused
    | .long "help" none => .help
    | .long name (some value) =>
      match given.take? name value with
      | some given => readExpand given rest
      | none => .refused
    | .long name none =>
      if Given.takesValue name then
        match rest with
        | [] => .refused
        | next :: others =>
          match Form.ofArgument next with
          | .plain value =>
            match given.take? name value with
            | some given => readExpand given others
            | none => .refused
          | _ => .refused
      else .refused

def readLetters (verbose : Bool) : List Char → Except Invocation Bool
  | [] => .ok verbose
  | 'v' :: rest => if verbose then .error .refused else readLetters true rest
  | 'V' :: _ => .error .version
  | 'h' :: _ => .error .help
  | _ => .error .refused

/-- Reads all arguments, where `verbose` tells whether the switch for more output is set. -/
def readAll (verbose : Bool) : List String → Invocation
  | [] => .help
  | argument :: rest =>
    match Form.ofArgument argument with
    | .plain "expand" => readExpand .empty rest
    | .plain "help" => if rest = [] || rest = ["expand"] || rest = ["help"] then .help else .refused
    | .plain _ => .refused
    | .long "verbose" none => if verbose then .refused else readAll true rest
    | .long "version" none => .version
    | .long "help" none => .help
    | .long _ _ => .refused
    | .short letters =>
      match readLetters verbose letters with
      | .ok verbose => readAll verbose rest
      | .error invocation => invocation
    | .endOfOptions => if rest.isEmpty then .help else .refused

def Invocation.ofArguments (arguments : List String) : Invocation := readAll false arguments

end FieldLookahead.Command
