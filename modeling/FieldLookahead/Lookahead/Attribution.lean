import FieldLookahead.Fragment.Unfolded
import FieldLookahead.Lookahead.Request
import FieldLookahead.Schema.Lookup

/-! Which types a selection set requests its fields on. A list of candidates is in force in
every place of a selection set: the types that a value may have there. -/

namespace FieldLookahead.Lookahead

open Fragment (Unfolded FieldNode)

inductive Fault where
  | lookup (fault : Schema.LookupFault)
  | clash (found : Clash)
  | missingSelections (typeName field : String)
  | unknownFragment (name : String)
  deriving DecidableEq, Repr

def Fault.message : Fault → String
  | lookup fault => fault.message
  | clash found =>
    "Cannot merge a leaf selection with a nested selection under the `" ++ found.key ++
      "` response key"
  | missingSelections typeName field =>
    "The `" ++ field ++ "` field returns the composite type `" ++ typeName ++
      "` but was selected without a selection set"
  | unknownFragment name =>
    "Fragment spread references an undefined fragment: `" ++ name ++ "`"

/-- Adds a request to a type, if the lookahead has the type. -/
def addTo (key : String) (request : Request) (typeName : String) (lookahead : Lookahead) :
    Attempt Clash Lookahead :=
  match Assoc.get? typeName lookahead with
  | none => .done lookahead
  | some requests =>
    (Requests.absorb requests [(key, request)]).map (Assoc.insert typeName · lookahead)

def addToAll (candidates : List String) (key : String) (request : Request)
    (lookahead : Lookahead) : Attempt Fault Lookahead :=
  (Attempt.each (addTo key request) candidates lookahead).mapError .clash

/-- Goes on with the types that a condition leaves, unless it has none. -/
def underCondition (schema : Schema) (condition : String) (lookahead : Lookahead)
    (next : List String → Attempt Fault Lookahead) : Attempt Fault Lookahead :=
  match schema.possibleTypes condition with
  | .error fault => .stopped lookahead (.lookup fault)
  | .ok candidates => next candidates

def withRequest (found : Except Fault Lookahead) (lookahead : Lookahead)
    (next : Request → Attempt Fault Lookahead) : Attempt Fault Lookahead :=
  match found with
  | .error fault => .stopped lookahead fault
  | .ok below => next (.nested below)

/-- What a field of a type requests, if `fill` adds what its sub-fields request for candidates:
nothing if the type is a leaf, and else an entry for each type that the value may have. -/
def below (schema : Schema) (typeName : String)
    (fill : List String → Lookahead → Attempt Fault Lookahead) : Except Fault Lookahead := do
  if ← (schema.isLeaf typeName).mapError .lookup then pure []
  else
    let candidates ← (schema.possibleTypes typeName).mapError .lookup
    (fill candidates (ofTypes candidates)).finished

mutual
/-- Adds what one selection requests. The first candidate tells the type of a field that has
sub-fields; fields about the schema itself are left out. -/
def addSelection (schema : Schema) (candidates : List String) :
    Unfolded → Lookahead → Attempt Fault Lookahead
  | .field label selections, lookahead =>
    if label.isMeta then .done lookahead
    else if selections.isEmpty then addToAll candidates label.key .leaf lookahead
    else
      match candidates with
      | [] => .done lookahead
      | candidate :: _ =>
        let found := do
          let typeName ← (schema.fieldType candidate label.name).mapError .lookup
          below schema typeName fun inner start => addSelections schema inner selections start
        withRequest found lookahead fun request =>
          addToAll candidates label.key request lookahead
  | .inline none selections, lookahead => addSelections schema candidates selections lookahead
  | .inline (some condition) selections, lookahead =>
    underCondition schema condition lookahead fun inner =>
      addSelections schema inner selections lookahead
  | .spread _ condition selections, lookahead =>
    underCondition schema condition lookahead fun inner =>
      addSelections schema inner selections lookahead
  | .unknown name, lookahead => .stopped lookahead (.unknownFragment name)
  termination_by structural selection => selection

def addSelections (schema : Schema) (candidates : List String) :
    List Unfolded → Lookahead → Attempt Fault Lookahead
  | [], lookahead => .done lookahead
  | selection :: rest, lookahead =>
    (addSelection schema candidates selection lookahead).andThen
      (addSelections schema candidates rest)
  termination_by structural selections => selections
end

def addNode (schema : Schema) (typeName : String) (candidates : List String) (node : FieldNode)
    (lookahead : Lookahead) : Attempt Fault Lookahead :=
  if node.below.isEmpty then
    .stopped lookahead (.missingSelections typeName node.label.name)
  else addSelections schema candidates node.below lookahead

/-- What nodes of one field of a type request together. -/
def ofNodes (schema : Schema) (typeName : String) (nodes : List FieldNode) :
    Except Fault Lookahead :=
  below schema typeName fun candidates => Attempt.each (addNode schema typeName candidates) nodes

end FieldLookahead.Lookahead
