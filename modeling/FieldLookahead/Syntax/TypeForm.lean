import FieldLookahead.Syntax.Tree

/-! Types as they are written. -/

namespace FieldLookahead.Syntax

inductive TypeForm where
  | named (name : String)
  | list (item : TypeForm)
  | required (form : TypeForm)
  deriving DecidableEq, Repr

namespace TypeForm

/-- A bang follows a name or a list only. -/
def IsGrammatical : TypeForm → Prop
  | named _ => True
  | list item => item.IsGrammatical
  | required (named _) => True
  | required (list item) => item.IsGrammatical
  | required (required _) => False

def text : TypeForm → String
  | named name => name
  | list item => "[" ++ item.text ++ "]"
  | required form => form.text ++ "!"

def ofTree? : Tree → Option TypeForm
  | .leaf (.name name) _ => some (.named name)
  | .group .square _ [item] => (ofTree? item).map .list
  | .group .square _ [item, .leaf (.mark .bang) _] =>
    (ofTree? item).map fun form => .list (.required form)
  | _ => none
  termination_by structural tree => tree

def read? : List Tree → Option (TypeForm × List Tree)
  | tree :: .leaf (.mark .bang) _ :: rest =>
    (ofTree? tree).map fun form => (.required form, rest)
  | tree :: rest => (ofTree? tree).map fun form => (form, rest)
  | [] => none

end TypeForm
end FieldLookahead.Syntax
