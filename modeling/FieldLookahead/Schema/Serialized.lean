import FieldLookahead.Json
import FieldLookahead.Schema.NamedType

/-! Types as JSON: a tag for the kind, with the type's own data below it. -/

namespace FieldLookahead.Schema

open Syntax

def locationJson (location : Location) : Json :=
  .object [("col", .number location.position.column), ("file", Json.ofText? location.file?),
    ("line", .number location.position.line)]

def TypeReference.toJson : TypeReference → Json
  | named name nullable =>
    .object [("Named", .object [("nullable", .bool nullable), ("type_name", .text name)])]
  | list item nullable =>
    .object [("List", .object [("inner_type_ref", item.toJson), ("nullable", .bool nullable)])]

def mapJson {α : Type} (toJson : α → Json) (map : OrderedMap String α) : Json :=
  .object (map.entries.map fun (key, value) => (key, toJson value))

def Field.toJson (field : Field) : Json :=
  .object [("def_location", locationJson field.location),
    ("description", Json.ofText? field.description?), ("name", .text field.name),
    ("parameters", mapJson TypeReference.toJson field.parameters),
    ("parent_type_name", .text field.owner), ("type_annotation", field.type.toJson)]

def shapeJson (heading : Heading) (shape : Shape) : Json :=
  .object [("def_location", locationJson heading.location),
    ("description", Json.ofText? heading.description?),
    ("fields", mapJson Field.toJson shape.fields),
    ("interfaces", Json.ofTexts shape.interfaces), ("name", .text heading.name)]

def NamedType.toJson (type : NamedType) : Json :=
  match type with
  | builtin _ => .text type.kind.tag
  | scalar heading => tagged [("def_location", locationJson heading.location),
      ("description", Json.ofText? heading.description?), ("name", .text heading.name)]
  | object heading shape | interface heading shape =>
    .object [(type.kind.tag, shapeJson heading shape)]
  | union heading members => tagged [("def_location", locationJson heading.location),
      ("description", Json.ofText? heading.description?), ("members", Json.ofTexts members),
      ("name", .text heading.name)]
  | enum heading values => tagged [("def_location", locationJson heading.location),
      ("description", Json.ofText? heading.description?), ("name", .text heading.name),
      ("values", Json.ofTexts values)]
  | input heading fields => tagged [("def_location", locationJson heading.location),
      ("description", Json.ofText? heading.description?),
      ("fields", mapJson TypeReference.toJson fields), ("name", .text heading.name)]
where
  tagged (members : List (String × Json)) : Json := .object [(type.kind.tag, .object members)]

end FieldLookahead.Schema
