import FieldLookahead.Sdl.Reader
import FieldLookahead.Schema.Fault

/-! Schemas under construction. Definitions are filed as they come; extensions wait until all
definitions are there. -/

namespace FieldLookahead.Schema

open Syntax

namespace Shape

def addInterface (heading : Heading) (shape : Shape) (interface : String) :
    Except Fault Shape :=
  if interface ∈ shape.interfaces then
    .error (.repeatedInterface heading.name interface heading.location)
  else .ok { shape with interfaces := shape.interfaces ++ [interface] }

def fieldOf (owner : String) (file? : Option String) (declared : Sdl.Field) : Field where
  name := declared.name
  owner := owner
  type := .ofForm declared.form
  parameters := .ofList (declared.arguments.map fun input => (input.name, .ofForm input.form))
  description? := declared.description?
  location := ⟨file?, declared.position⟩

def addField (file? : Option String) (heading : Heading) (shape : Shape)
    (declared : Sdl.Field) : Except Fault Shape :=
  let field := fieldOf heading.name file? declared
  match shape.fields.get? field.name with
  | some first =>
    .error (.repeatedField heading.name field.name first.location field.location)
  | none => .ok { shape with fields := shape.fields.insert field.name field }

def grow (file? : Option String) (heading : Heading) (interfaces : List String)
    (fields : List Sdl.Field) (shape : Shape) : Except Fault Shape := do
  let shape ← interfaces.foldlM (addInterface heading) shape
  fields.foldlM (addField file? heading) shape

end Shape

namespace NamedType

def addMember (heading : Heading) (location : Location) (members : List String)
    (member : String) : Except Fault (List String) :=
  if member ∈ members then .error (.repeatedMember heading.name member location)
  else .ok (members ++ [member])

def addValue (file? : Option String) (heading : Heading) (values : List String)
    (value : Sdl.EnumValue) : Except Fault (List String) :=
  if value.name ∈ values then
    .error (.repeatedValue heading.name value.name ⟨file?, value.position⟩)
  else .ok (values ++ [value.name])

/-- Input fields that come again take their last type. -/
def addInput (fields : OrderedMap String TypeReference) (input : Sdl.Input) :
    OrderedMap String TypeReference :=
  fields.insert input.name (.ofForm input.form)

def blank (heading : Heading) : Sdl.TypeBody → NamedType
  | .scalar => .scalar heading
  | .object _ _ => .object heading .empty
  | .interface _ _ => .interface heading .empty
  | .union _ => .union heading []
  | .enum _ => .enum heading []
  | .input _ => .input heading ∅

/-- The type with what a body lists added to it; the body, found at a location, must be of the
type's own kind. -/
def grow (file? : Option String) (location : Location) :
    Sdl.TypeBody → NamedType → Except Fault NamedType
  | .scalar, scalar heading => .ok (scalar heading)
  | .object interfaces fields, object heading shape =>
    (shape.grow file? heading interfaces fields).map (object heading)
  | .interface interfaces fields, interface heading shape =>
    (shape.grow file? heading interfaces fields).map (interface heading)
  | .union more, union heading members =>
    (more.foldlM (addMember heading location) members).map (union heading)
  | .enum more, enum heading values =>
    (more.foldlM (addValue file? heading) values).map (enum heading)
  | .input more, input heading fields => .ok (input heading (more.foldl addInput fields))
  | _, type => .error (.mismatchedExtension type.name type.kind location)

def ofDefinition (file? : Option String) (definition : Sdl.TypeDefinition) :
    Except Fault NamedType :=
  let location : Location := ⟨file?, definition.position⟩
  grow file? location definition.body
    (blank ⟨definition.name, definition.description?, location⟩ definition.body)

end NamedType

/-- What has been read of a schema. -/
structure Draft where
  types : TypeTable
  roots : OrderedMap Query.OperationKind (String × Location)
  extensions : List (Option String × Sdl.TypeExtension)

namespace Draft

def empty : Draft := ⟨.builtins, ∅, []⟩

def addType (draft : Draft) (file? : Option String) (definition : Sdl.TypeDefinition) :
    Except Fault Draft := do
  let type ← NamedType.ofDefinition file? definition
  match draft.types.get? type.name with
  | some first =>
    .error (.repeatedType type.name first.location? ⟨file?, definition.position⟩)
  | none => .ok { draft with types := draft.types.insert type }

/-- Notes the root type of one kind of operation, if a schema definition names one. -/
def addRoot (location : Location) (named : Sdl.Roots) (draft : Draft)
    (operation : Query.OperationKind) : Except Fault Draft :=
  match named.get? operation with
  | none => .ok draft
  | some typeName =>
    match draft.roots.get? operation with
    | some (_, first) => .error (.repeatedRoot operation first location)
    | none => .ok { draft with roots := draft.roots.insert operation (typeName, location) }

def addRoots (draft : Draft) (file? : Option String) (named : Sdl.Roots) : Except Fault Draft :=
  [.query, .mutation, .subscription].foldlM (addRoot ⟨file?, named.position⟩ named) draft

def addDefinition (file? : Option String) (draft : Draft) :
    Sdl.Definition → Except Fault Draft
  | .roots named => draft.addRoots file? named
  | .type definition => draft.addType file? definition
  | .extension extension =>
    .ok { draft with extensions := draft.extensions ++ [(file?, extension)] }
  | .directive => .ok draft

def addDocument (draft : Draft) (file? : Option String) (document : Sdl.Document) :
    Except Fault Draft :=
  document.foldlM (addDefinition file?) draft

def addText (draft : Draft) (file? : Option String) (text : String) : Except Fault Draft :=
  match Sdl.Document.ofText? text with
  | none => .error (.unparsable file?)
  | some document => draft.addDocument file? document

end Draft
end FieldLookahead.Schema
