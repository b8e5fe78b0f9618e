import FieldLookahead.Plan.Groups

/-! Field positions: the fields of an operation, told apart by the object types and response keys
on the way from the root, each with what is requested below it. -/

namespace FieldLookahead.Plan

open Fragment (Unfolded FieldNode)

structure Step where
  object : String
  key : String
  deriving DecidableEq, Repr

def Step.text (step : Step) : String := step.object ++ "." ++ step.key

abbrev Position := List Step

def Position.text (position : Position) : String :=
  String.intercalate "/" (position.map Step.text)

/-- What is known of a field before it is resolved. -/
structure Entry where
  parent : String
  field : String
  type : Schema.TypeReference
  nodes : List FieldNode
  lookahead : Lookahead

def Entry.ofNodes (schema : Schema) (parent field : String) (type : Schema.TypeReference)
    (nodes : List FieldNode) : Except Lookahead.Fault Entry := do
  let _ ← (schema.field parent field).mapError .lookup
  let typeName ← (schema.referenced type).mapError .lookup
  let lookahead ← Lookahead.ofNodes schema typeName nodes
  pure ⟨parent, field, type, nodes, lookahead⟩

/-- The object types among the types that a value of a type may have; none for a leaf type. -/
def objectsOf (schema : Schema) (typeName : String) :
    Except Schema.LookupFault (List String) := do
  if ← schema.isLeaf typeName then pure []
  else return (← schema.possibleTypes typeName).filter schema.types.isObject

def entryOfGroup? (schema : Schema) (object : String) :
    List FieldNode → Except Lookahead.Fault (Option Entry)
  | [] => .ok none
  | first :: others => do
    let field ← (schema.field object first.label.name).mapError .lookup
    return some (← Entry.ofNodes schema object first.label.name field.type (first :: others))

/-- The positions below a position, each before those below itself. They are followed down to a
depth, which must be greater than the height of the selection sets. -/
def positionsBelow (schema : Schema) :
    Nat → Position → String → List (List Unfolded) →
      Except Lookahead.Fault (List (Position × Entry))
  | 0, _, _, _ => .ok []
  | depth + 1, above, object, selectionSets => do
    let groups ← groups schema object selectionSets
    let parts ← groups.mapM fun (key, nodes) => do
      match ← entryOfGroup? schema object nodes with
      | none => pure []
      | some entry =>
        let position := above ++ [⟨object, key⟩]
        let objects ← (objectsOf schema entry.type.typeName).mapError .lookup
        let inner ← objects.mapM fun inner =>
          positionsBelow schema depth position inner (nodes.map (·.below))
        pure ((position, entry) :: inner.flatten)
    pure parts.flatten

def positions (schema : Schema) (root : String) (selections : List Unfolded) :
    Except Lookahead.Fault (List (Position × Entry)) :=
  positionsBelow schema (Unfolded.heightOfAll selections + 1) [] root [selections]

end FieldLookahead.Plan
