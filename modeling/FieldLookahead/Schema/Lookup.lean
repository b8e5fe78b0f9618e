import FieldLookahead.Schema.Basic

/-! Questions about the types of a schema. -/

namespace FieldLookahead.Schema

inductive LookupFault where
  | undefinedType (typeName : String)
  | undefinedField (typeName field : String)
  | wrongKind (typeName : String) (kind : Kind) (expected : String)
  deriving DecidableEq, Repr

def LookupFault.message : LookupFault → String
  | undefinedType typeName =>
    "Reference to a type named `" ++ typeName ++ "` that is not defined in the schema"
  | undefinedField typeName field =>
    "The `" ++ field ++ "` field is not defined on the `" ++ typeName ++ "` type"
  | wrongKind typeName kind expected =>
    "Expected `" ++ typeName ++ "` to be " ++ expected ++ ", but it is a " ++ kind.name ++
      " type"

def type (schema : Schema) (typeName : String) : Except LookupFault NamedType :=
  match schema.get? typeName with
  | some type => .ok type
  | none => .error (.undefinedType typeName)

def kind (schema : Schema) (typeName : String) : Except LookupFault Kind :=
  (schema.type typeName).map NamedType.kind

def isLeaf (schema : Schema) (typeName : String) : Except LookupFault Bool :=
  (schema.kind typeName).map Kind.isLeaf

def field (schema : Schema) (typeName field : String) : Except LookupFault Field := do
  let owner ← schema.type typeName
  match owner.shape? with
  | none => .error (.wrongKind typeName owner.kind "an object or interface type")
  | some shape =>
    match shape.fields.get? field with
    | some declared => .ok declared
    | none => .error (.undefinedField typeName field)

def referenced (schema : Schema) (reference : TypeReference) : Except LookupFault String :=
  (schema.type reference.typeName).map fun _ => reference.typeName

def fieldType (schema : Schema) (typeName field : String) : Except LookupFault String := do
  let declared ← schema.field typeName field
  schema.referenced declared.type

/-- The types that a value may turn out to have where a composite type is declared. An interface
comes before the object types that implement it. -/
def possibleTypes (schema : Schema) (typeName : String) : Except LookupFault (List String) := do
  match ← schema.type typeName with
  | .object heading _ => .ok [heading.name]
  | .interface heading _ => .ok (heading.name :: schema.implementers typeName)
  | .union _ members => .ok members
  | other => .error (.wrongKind typeName other.kind "an object, interface, or union type")

end FieldLookahead.Schema
