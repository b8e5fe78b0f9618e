import FieldLookahead.Syntax.Position

/-! Executable documents: operations, fragments and their selections. Arguments, directives and
variables are left out, since they do not decide which fields are requested. -/

namespace FieldLookahead.Query

open Syntax

inductive OperationKind where
  | query | mutation | subscription
  deriving DecidableEq, Repr

namespace OperationKind

def keyword : OperationKind → String
  | query => "query"
  | mutation => "mutation"
  | subscription => "subscription"

def title : OperationKind → String
  | query => "Query"
  | mutation => "Mutation"
  | subscription => "Subscription"

def ofKeyword? : String → Option OperationKind
  | "query" => some query
  | "mutation" => some mutation
  | "subscription" => some subscription
  | _ => none

end OperationKind

structure FieldLabel where
  alias? : Option String
  name : String
  position : Position
  deriving DecidableEq, Repr

/-- The key of the field's value in a response. -/
def FieldLabel.key (label : FieldLabel) : String := label.alias?.getD label.name

def FieldLabel.isMeta (label : FieldLabel) : Bool :=
  match label.name.toList with
  | '_' :: '_' :: _ => true
  | _ => false

inductive Selection where
  | field (label : FieldLabel) (below : List Selection)
  | spread (fragment : String) (position : Position)
  | inline (condition? : Option String) (position : Position) (below : List Selection)
  deriving Repr

structure Operation where
  kind : OperationKind
  name? : Option String
  selections : List Selection
  deriving Repr

structure Fragment where
  name : String
  condition : String
  position : Position
  selections : List Selection
  deriving Repr

inductive Definition where
  | operation (operation : Operation)
  | fragment (fragment : Fragment)
  deriving Repr

abbrev Document := List Definition

namespace Document

def operations (document : Document) : List Operation :=
  document.filterMap fun
    | .operation operation => some operation
    | .fragment _ => none

def fragments (document : Document) : List Fragment :=
  document.filterMap fun
    | .operation _ => none
    | .fragment fragment => some fragment

end Document

mutual
/-- The names of the fragments that a selection spreads at any depth, in document order. -/
def Selection.spreads : Selection → List (String × Position)
  | .field _ below => spreadsOfAll below
  | .spread fragment position => [(fragment, position)]
  | .inline _ _ below => spreadsOfAll below
  termination_by structural selection => selection

def spreadsOfAll : List Selection → List (String × Position)
  | [] => []
  | selection :: rest => selection.spreads ++ spreadsOfAll rest
  termination_by structural selections => selections
end

end FieldLookahead.Query
