import FieldLookahead.Plan.Basic
import FieldLookahead.Response.Path
import FieldLookahead.Value.Basic

/-! What the resolver of a field is told. -/

namespace FieldLookahead.Response

/-- The field's entry in its plan, and what varies from one call to the next. -/
structure Info where
  schema : Schema
  plan : Plan
  entry : Plan.Entry
  root : Value
  variableValues : OrderedMap String Value
  path : Path

namespace Info

def atPosition? (schema : Schema) (plan : Plan) (position : String) (root : Value)
    (variableValues : OrderedMap String Value) (path : Path) : Option Info :=
  (plan.entries.get? position).map fun entry => ⟨schema, plan, entry, root, variableValues, path⟩

def parent? (info : Info) : Option Schema.NamedType := info.schema.get? info.entry.parent

end Info
end FieldLookahead.Response
