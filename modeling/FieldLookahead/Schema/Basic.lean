import FieldLookahead.Schema.Ancestry
import FieldLookahead.Schema.Draft
import FieldLookahead.Schema.References

/-! Schemas: types whose references all resolve, and the root types of operations. -/

namespace FieldLookahead

open Query (OperationKind)

structure Schema where
  types : Schema.TypeTable
  resolved : types.referenceFaults = []
  implementations : List (String × List String)
  implementations_eq : implementations = types.implementations
  query : types.ObjectName
  mutation? : Option types.ObjectName
  subscription? : Option types.ObjectName

namespace Schema

/-- The root type of a kind of operation: the type that a schema definition names, which must be
an object type, or else the object type that has the usual name. -/
def TypeTable.root? (types : TypeTable)
    (roots : OrderedMap OperationKind (String × Syntax.Location)) (operation : OperationKind) :
    Except Fault (Option types.ObjectName) :=
  match roots.get? operation with
  | some (typeName, location) =>
    if object : types.isObject typeName = true then .ok (some ⟨typeName, object⟩)
    else .error (.invalidRoot operation typeName location)
  | none =>
    if object : types.isObject operation.title = true then .ok (some ⟨operation.title, object⟩)
    else .ok none

def TypeTable.extend (types : TypeTable) (source : Option String × Sdl.TypeExtension) :
    Except Fault TypeTable := do
  let (file?, extension) := source
  let location : Syntax.Location := ⟨file?, extension.position⟩
  match types.get? extension.name with
  | none => .error (.undefinedExtended extension.name location)
  | some type => (NamedType.grow file? location extension.body type).map types.insert

def ofDraft (draft : Draft) : Except Fault Schema := do
  let types ← draft.extensions.foldlM TypeTable.extend draft.types
  match ← types.root? draft.roots .query with
  | none => .error .noQueryRoot
  | some query =>
    let mutation? ← types.root? draft.roots .mutation
    let subscription? ← types.root? draft.roots .subscription
    if resolved : types.referenceFaults = [] then
      .ok ⟨types, resolved, types.implementations, rfl, query, mutation?, subscription?⟩
    else .error (.references types.referenceFaults)

def root? (schema : Schema) : OperationKind → Option String
  | .query => some schema.query.val
  | .mutation => schema.mutation?.map (·.val)
  | .subscription => schema.subscription?.map (·.val)

def get? (schema : Schema) (name : String) : Option NamedType := schema.types.get? name

def implementers (schema : Schema) (interface : String) : List String :=
  (Assoc.get? interface schema.implementations).getD []

end Schema
end FieldLookahead
