import FieldLookahead.Schema.Fault

/-! Whether the types of a table refer only to types of the table, and to the right kinds. -/

namespace FieldLookahead.Schema.TypeTable

open Syntax

def interfaceFault? (table : TypeTable) (heading : Heading) (interface : String) :
    Option ReferenceFault :=
  match table.get? interface with
  | some type =>
    if type.isInterface then none
    else some (.notAnInterface heading.name type.name heading.location)
  | none => some (.undefinedInterface heading.name interface heading.location)

def memberFault? (table : TypeTable) (heading : Heading) (member : String) :
    Option ReferenceFault :=
  match table.get? member with
  | some type =>
    if type.isObject then none
    else some (.notAnObject heading.name member type.kind heading.location)
  | none => some (.undefinedType member heading.location)

def referenceFault? (table : TypeTable) (location : Location) (reference : TypeReference) :
    Option ReferenceFault :=
  if table.contains reference.typeName then none
  else some (.undefinedType reference.typeName location)

/-- The faults of what a type refers to. The types of parameters are not among it. -/
def faultsOf (table : TypeTable) : NamedType → List ReferenceFault
  | .object heading shape | .interface heading shape =>
    shape.interfaces.filterMap (table.interfaceFault? heading) ++
      shape.fields.values.filterMap fun field =>
        table.referenceFault? field.location field.type
  | .union heading members => members.filterMap (table.memberFault? heading)
  | .input heading fields =>
    fields.values.filterMap (table.referenceFault? heading.location)
  | .builtin _ | .scalar _ | .enum _ _ => []

def referenceFaults (table : TypeTable) : List ReferenceFault :=
  table.types.flatMap table.faultsOf

end FieldLookahead.Schema.TypeTable
