import FieldLookahead.Sdl.Document
import FieldLookahead.Syntax.Literal

/-! Reading schema documents. -/

namespace FieldLookahead.Sdl

open Syntax

def description : List Tree → Option String × List Tree
  | .leaf (.text content) _ :: rest => (some content, rest)
  | trees => (none, trees)

def input? (trees : List Tree) : Option (Input × List Tree) :=
  match (description trees).2 with
  | .leaf (.name name) _ :: .leaf (.mark .colon) _ :: rest => do
    let (form, rest) ← TypeForm.read? rest
    let rest ← (skipDefault? rest).bind skipDirectives?
    pure (⟨name, form⟩, rest)
  | _ => none

def arguments? : List Tree → Option (List Input × List Tree)
  | .group .round _ content :: rest => (Tree.readSome? input? content).map (·, rest)
  | trees => some ([], trees)

def field? (trees : List Tree) : Option (Field × List Tree) :=
  match trees, description trees with
  | [], _ => none
  | first :: _, (description?, .leaf (.name name) _ :: rest) => do
    let (arguments, rest) ← arguments? rest
    match rest with
    | .leaf (.mark .colon) _ :: rest =>
      let (form, rest) ← TypeForm.read? rest
      let rest ← skipDirectives? rest
      pure (⟨name, form, arguments, description?, first.position⟩, rest)
    | _ => none
  | _, _ => none

def enumValue? (trees : List Tree) : Option (EnumValue × List Tree) :=
  match trees, description trees with
  | [], _ => none
  | first :: _, (_, .leaf (.name name) _ :: rest) => do
    let rest ← skipDirectives? rest
    pure (⟨name, first.position⟩, rest)
  | _, _ => none

def block? {α : Type} (item? : List Tree → Option (α × List Tree)) :
    List Tree → Option (List α × List Tree)
  | .group .curly _ content :: rest => (Tree.readSome? item? content).map (·, rest)
  | trees => some ([], trees)

def moreNames? (between : Mark) : List Tree → Option (List String × List Tree)
  | .leaf (.mark mark) position :: rest =>
    if mark = between then
      match rest with
      | .leaf (.name name) _ :: others =>
        (moreNames? between others).map fun (names, others) => (name :: names, others)
      | _ => none
    else some ([], .leaf (.mark mark) position :: rest)
  | trees => some ([], trees)

def names? (between : Mark) : List Tree → Option (List String × List Tree)
  | .leaf (.name name) _ :: rest =>
    (moreNames? between rest).map fun (names, others) => (name :: names, others)
  | .leaf (.mark mark) _ :: .leaf (.name name) _ :: rest =>
    if mark = between then
      (moreNames? between rest).map fun (names, others) => (name :: names, others)
    else none
  | _ => none

def interfaces? : List Tree → Option (List String × List Tree)
  | .leaf (.name "implements") _ :: rest => names? .ampersand rest
  | trees => some ([], trees)

def members? : List Tree → Option (List String × List Tree)
  | .leaf (.mark .equals) _ :: rest => names? .bar rest
  | trees => some ([], trees)

/-- A type's body after its keyword and name, whether any directive was among it, and what
follows it. -/
def body? (keyword : String) (trees : List Tree) : Option (TypeBody × Bool × List Tree) :=
  match keyword with
  | "scalar" => do
    let rest ← skipDirectives? trees
    pure (.scalar, rest.length < trees.length, rest)
  | "type" => do
    let (interfaces, start) ← interfaces? trees
    let rest ← skipDirectives? start
    let (fields, others) ← block? field? rest
    pure (.object interfaces fields, rest.length < start.length, others)
  | "interface" => do
    let (interfaces, start) ← interfaces? trees
    let rest ← skipDirectives? start
    let (fields, others) ← block? field? rest
    pure (.interface interfaces fields, rest.length < start.length, others)
  | "union" => do
    let rest ← skipDirectives? trees
    let (members, others) ← members? rest
    pure (.union members, rest.length < trees.length, others)
  | "enum" => do
    let rest ← skipDirectives? trees
    let (values, others) ← block? enumValue? rest
    pure (.enum values, rest.length < trees.length, others)
  | "input" => do
    let rest ← skipDirectives? trees
    let (fields, others) ← block? input? rest
    pure (.input fields, rest.length < trees.length, others)
  | _ => none

/-- A body that lists nothing; for an interface, the interfaces it implements do not count. -/
def TypeBody.isEmpty : TypeBody → Bool
  | scalar => true
  | object interfaces fields => interfaces.isEmpty && fields.isEmpty
  | interface _ fields => fields.isEmpty
  | union members => members.isEmpty
  | enum values => values.isEmpty
  | input fields => fields.isEmpty

def rootTypes? (roots : Roots) : List Tree → Option Roots
  | [] => some roots
  | .leaf (.name keyword) _ :: .leaf (.mark .colon) _ :: .leaf (.name typeName) _ :: rest => do
    let kind ← Query.OperationKind.ofKeyword? keyword
    if (roots.get? kind).isSome then none else rootTypes? (roots.set typeName kind) rest
  | _ => none

def directivePlaces : List String :=
  ["QUERY", "MUTATION", "SUBSCRIPTION", "FIELD", "FRAGMENT_DEFINITION", "FRAGMENT_SPREAD",
   "INLINE_FRAGMENT", "VARIABLE_DEFINITION", "SCHEMA", "SCALAR", "OBJECT", "FIELD_DEFINITION",
   "ARGUMENT_DEFINITION", "INTERFACE", "UNION", "ENUM", "ENUM_VALUE", "INPUT_OBJECT",
   "INPUT_FIELD_DEFINITION"]

def skipPlaces? : List Tree → Option (List Tree)
  | .leaf (.name "repeatable") _ :: .leaf (.name "on") _ :: rest => places? rest
  | .leaf (.name "on") _ :: rest => places? rest
  | _ => none
where
  places? (trees : List Tree) : Option (List Tree) := do
    let (names, rest) ←
      match trees with
      | .leaf (.name _) _ :: _ => names? .bar trees
      | .leaf (.mark .bar) _ :: _ => names? .bar trees
      | _ => some ([], trees)
    if names.all directivePlaces.contains then some rest else none

def definition? (trees : List Tree) : Option (Definition × List Tree) :=
  match trees with
  | .leaf (.name "schema") position :: rest => do
    match ← skipDirectives? rest with
    | .group .curly _ content :: rest =>
      let roots ← rootTypes? ⟨position, none, none, none⟩ content
      pure (.roots roots, rest)
    | _ => none
  | .leaf (.name "extend") _ :: .leaf (.name keyword) position :: .leaf (.name name) _ ::
      rest => do
    let (body, directed, rest) ← body? keyword rest
    if body.isEmpty && !directed then none
    else pure (.extension ⟨name, position, body⟩, rest)
  | trees =>
    match description trees with
    | (_, .leaf (.name "directive") _ :: .leaf (.mark .atSign) _ :: .leaf (.name _) _ ::
        rest) => do
      let (_, rest) ← arguments? rest
      let rest ← skipPlaces? rest
      pure (.directive, rest)
    | (description?, .leaf (.name keyword) position :: .leaf (.name name) _ :: rest) => do
      let (body, _, rest) ← body? keyword rest
      pure (.type ⟨name, description?, position, body⟩, rest)
    | _ => none

def Document.ofText? (text : String) : Option Document :=
  (Tree.scan? text).bind (Tree.readSome? definition?)

end FieldLookahead.Sdl
