import FieldLookahead.Plan.Position

/-! Plans: what each field position of one operation of a document requests. -/

namespace FieldLookahead

namespace Plan

def entriesOf (visits : List (Position × Entry)) : OrderedMap String Entry :=
  .ofList (visits.map fun (position, entry) => (position.text, entry))

end Plan

/-- An operation with its positions in the order in which they are reached. -/
structure Plan where
  operation : Query.Operation
  fragments : Fragment.Table
  root : String
  visits : List (Plan.Position × Plan.Entry)
  entries : OrderedMap String Plan.Entry
  entries_eq : entries = Plan.entriesOf visits

namespace Plan

inductive Fault where
  | noOperations
  | unnamedOperation (count : Nat)
  | unknownOperation (name : String)
  | fragments (faults : List Fragment.Fault)
  | noRoot (operation : Query.OperationKind)
  | lookahead (fault : Lookahead.Fault)
  deriving DecidableEq, Repr

def Fault.message : Fault → String
  | noOperations => "The document does not contain any operations"
  | unnamedOperation count =>
    "The document contains " ++ toString count ++
      " operations, so the operation to compile must be named"
  | unknownOperation name =>
    "The document does not contain an operation named `" ++ name ++ "`"
  | fragments faults =>
    "Invalid fragment definitions: " ++
      String.intercalate "; " (faults.map Fragment.Fault.message)
  | noRoot operation =>
    "The schema does not define a root type for " ++ operation.keyword ++ " operations"
  | lookahead fault => fault.message

/-- The first operation of a name, or else the only operation. -/
def chooseOperation (document : Query.Document) (name? : Option String) :
    Except Fault Query.Operation :=
  match document.operations, name? with
  | [], _ => .error .noOperations
  | operations, some name =>
    match operations.find? fun operation => operation.name? = some name with
    | some operation => .ok operation
    | none => .error (.unknownOperation name)
  | [operation], none => .ok operation
  | operations, none => .error (.unnamedOperation operations.length)

/-- The plan of one operation of a document. -/
def ofDocument (schema : Schema) (document : Query.Document) (name? : Option String) :
    Except Fault Plan := do
  let operation ← chooseOperation document name?
  let table ← (Fragment.Table.ofDocument document).mapError .fragments
  match schema.root? operation.kind with
  | none => .error (.noRoot operation.kind)
  | some root =>
    let visits ← (positions schema root (table.unfold operation.selections)).mapError .lookahead
    pure ⟨operation, table, root, visits, entriesOf visits, rfl⟩

end Plan
end FieldLookahead
