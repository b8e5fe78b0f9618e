import FieldLookahead.Files.Fault
import FieldLookahead.Query.Document
import FieldLookahead.Schema.NamedType

/-! Why schema documents do not make a schema. -/

namespace FieldLookahead.Schema

open Syntax

/-- A reference of one type to another that the schema does not support. -/
inductive ReferenceFault where
  | notAnInterface (typeName interface : String) (location : Location)
  | undefinedInterface (typeName interface : String) (location : Location)
  | notAnObject (union member : String) (kind : Kind) (location : Location)
  | undefinedType (typeName : String) (location : Location)
  deriving DecidableEq, Repr

def spellLocation (location : Location) : String :=
  Text.record "FilePosition"
    [("col", toString location.position.column),
     ("file", Text.maybe (location.file?.map Text.literal)),
     ("line", toString location.position.line)]

namespace ReferenceFault

def message : ReferenceFault → String
  | notAnInterface typeName interface _ =>
    "The `" ++ typeName ++ "` type implements `" ++ interface ++
      "`, which is not an interface type"
  | undefinedInterface typeName interface _ =>
    "The `" ++ typeName ++ "` type implements `" ++ interface ++
      "`, which is not defined in the schema"
  | notAnObject union member kind _ =>
    "Union members must be object types, but the `" ++ union ++ "` union lists `" ++ member ++
      "` which is a " ++ kind.name ++ " type"
  | undefinedType typeName location =>
    "Reference to a type named `" ++ typeName ++ "` that is not defined (" ++ location.text ++
      ")"

def spelling : ReferenceFault → String
  | notAnInterface typeName interface location =>
    Text.record "ImplementsNonInterfaceType"
      [("type_name", Text.literal typeName),
       ("non_interface_type_name", Text.literal interface),
       ("loc", spellLocation location)]
  | undefinedInterface typeName interface location =>
    Text.record "ImplementsUndefinedInterface"
      [("type_name", Text.literal typeName),
       ("undefined_interface_name", Text.literal interface),
       ("loc", spellLocation location)]
  | notAnObject union member kind location =>
    Text.record "InvalidUnionMemberTypeKind"
      [("location", spellLocation location),
       ("union_type_name", Text.literal union),
       ("member_type_name", Text.literal member),
       ("member_type_kind", kind.tag)]
  | undefinedType typeName location =>
    Text.record "UndefinedTypeName"
      [("ref_location", spellLocation location),
       ("undefined_type_name", Text.literal typeName)]

end ReferenceFault

inductive Fault where
  | repeatedValue (enum value : String) (location : Location)
  | repeatedField (typeName field : String) (first second : Location)
  | repeatedInterface (typeName interface : String) (location : Location)
  | repeatedMember (union member : String) (location : Location)
  /-- The first definition is nowhere if the type is built in. -/
  | repeatedType (typeName : String) (first? : Option Location) (second : Location)
  | repeatedRoot (operation : Query.OperationKind) (first second : Location)
  | undefinedExtended (typeName : String) (location : Location)
  | mismatchedExtension (typeName : String) (kind : Kind) (location : Location)
  | invalidRoot (operation : Query.OperationKind) (typeName : String) (location : Location)
  | noQueryRoot
  | unparsable (file? : Option String)
  | unreadable (fault : Files.ReadFault)
  | references (faults : List ReferenceFault)
  deriving DecidableEq, Repr

def Fault.message : Fault → String
  | repeatedValue enum value location =>
    "The `" ++ enum ++ "` enum defines the `" ++ value ++ "` value more than once (" ++
      location.text ++ ")"
  | repeatedField typeName field _ _ =>
    "Multiple fields named `" ++ field ++ "` were defined on the `" ++ typeName ++ "` type"
  | repeatedInterface typeName interface _ =>
    "The `" ++ typeName ++ "` type declares that it implements the `" ++ interface ++
      "` interface more than once"
  | repeatedMember union member _ =>
    "The `" ++ union ++ "` union lists `" ++ member ++ "` as a member more than once"
  | repeatedType typeName first? second =>
    "Multiple GraphQL types named `" ++ typeName ++ "` were defined (" ++ placeText first? ++
      " and " ++ second.text ++ ")"
  | repeatedRoot operation _ _ =>
    "The " ++ operation.title ++ " root operation type was defined more than once"
  | undefinedExtended typeName location =>
    "Attempted to extend the `" ++ typeName ++ "` type, which is not defined (" ++
      location.text ++ ")"
  | mismatchedExtension typeName kind location =>
    "Attempted to extend the " ++ kind.name ++ " type `" ++ typeName ++
      "` with an extension of a different kind (" ++ location.text ++ ")"
  | invalidRoot operation typeName _ =>
    "The " ++ operation.title ++ " root operation type is declared as `" ++ typeName ++
      "`, which is not an object type defined in the schema"
  | noQueryRoot => "Attempted to build a schema that has no Query operation type defined"
  | unparsable file? =>
    "Error parsing schema document " ++ Text.maybe (file?.map Text.literal) ++
      ": schema parse error:"
  | unreadable fault =>
    "Failure while trying to read a schema file from disk: " ++ fault.message
  | references faults =>
    "Schema contains invalid type references: " ++
      Text.listing (faults.map ReferenceFault.spelling)

end FieldLookahead.Schema
