import FieldLookahead.Syntax.TypeForm

/-! References to types: a name, or a list of references, each of which may admit null or not. -/

namespace FieldLookahead.Schema

inductive TypeReference where
  | named (name : String) (nullable : Bool)
  | list (item : TypeReference) (nullable : Bool)
  deriving DecidableEq, Repr

namespace TypeReference

def nullable : TypeReference → Bool
  | named _ nullable => nullable
  | list _ nullable => nullable

def required : TypeReference → TypeReference
  | named name _ => named name false
  | list item _ => list item false

/-- The reference that a written type makes; what is not marked as required admits null. -/
def ofForm : Syntax.TypeForm → TypeReference
  | .named name => named name true
  | .list item => list (ofForm item) true
  | .required form => (ofForm form).required

def innermost : TypeReference → String × Bool
  | named name nullable => (name, nullable)
  | list item _ => item.innermost

def typeName (reference : TypeReference) : String := reference.innermost.1

def text : TypeReference → String
  | named name nullable => name ++ (if nullable then "" else "!")
  | list item nullable => "[" ++ item.text ++ "]" ++ (if nullable then "" else "!")

end TypeReference
end FieldLookahead.Schema
