import FieldLookahead.Lookahead.Attribution

/-! The fields that selection sets request of one object type, grouped by response key. -/

namespace FieldLookahead.Plan

open Fragment (Unfolded FieldNode)

abbrev Groups := List (String × List FieldNode)

/-- Groups under way, with the fragments that have been entered. -/
structure Gathering where
  groups : Groups
  entered : List String

namespace Gathering

def empty : Gathering := ⟨[], []⟩

def addNode (gathering : Gathering) (node : FieldNode) : Gathering :=
  let nodes := (Assoc.get? node.label.key gathering.groups).getD []
  { gathering with
    groups := Assoc.insert node.label.key (nodes ++ [node]) gathering.groups }

def enter (gathering : Gathering) (fragment : String) : Gathering :=
  { gathering with entered := fragment :: gathering.entered }

end Gathering

def meets (schema : Schema) (object condition : String) : Except Lookahead.Fault Bool :=
  ((schema.possibleTypes condition).map (·.contains object)).mapError .lookup

mutual
/-- Gathers from one selection. A fragment is entered once; fields about the schema itself are
left out. -/
def gatherSelection (schema : Schema) (object : String) :
    Unfolded → Gathering → Except Lookahead.Fault Gathering
  | .field label below, gathering =>
    .ok (if label.isMeta then gathering else gathering.addNode ⟨label, below⟩)
  | .inline none below, gathering => gatherSelections schema object below gathering
  | .inline (some condition) below, gathering => do
    if ← meets schema object condition then gatherSelections schema object below gathering
    else pure gathering
  | .spread name condition below, gathering =>
    if name ∈ gathering.entered then .ok gathering
    else do
      if ← meets schema object condition then
        gatherSelections schema object below (gathering.enter name)
      else pure (gathering.enter name)
  | .unknown name, gathering =>
    if name ∈ gathering.entered then .ok gathering else .error (.unknownFragment name)
  termination_by structural selection => selection

def gatherSelections (schema : Schema) (object : String) :
    List Unfolded → Gathering → Except Lookahead.Fault Gathering
  | [], gathering => .ok gathering
  | selection :: rest, gathering => do
    let gathering ← gatherSelection schema object selection gathering
    gatherSelections schema object rest gathering
  termination_by structural selections => selections
end

/-- The groups of all fields that some selection sets request of an object type. -/
def groups (schema : Schema) (object : String) (selectionSets : List (List Unfolded)) :
    Except Lookahead.Fault Groups := do
  let gathering ← selectionSets.foldlM
    (fun gathering selections => gatherSelections schema object selections gathering) .empty
  pure gathering.groups

end FieldLookahead.Plan
