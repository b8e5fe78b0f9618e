/-! The kinds of types in a schema. -/

namespace FieldLookahead.Schema

/-- The types that every schema has without defining them. -/
inductive Builtin where
  | boolean | float | id | int | string
  deriving DecidableEq, Repr

namespace Builtin

def name : Builtin → String
  | boolean => "Boolean"
  | float => "Float"
  | id => "ID"
  | int => "Int"
  | string => "String"

def all : List Builtin := [boolean, float, id, int, string]

end Builtin

inductive Kind where
  | builtin (which : Builtin)
  | enum | input | interface | object | scalar | union
  deriving DecidableEq, Repr

namespace Kind

def name : Kind → String
  | builtin which => which.name
  | enum => "Enum"
  | input => "InputObject"
  | interface => "Interface"
  | object => "Object"
  | scalar => "Scalar"
  | union => "Union"

/-- The one-word tag that stands for the kind in diagnostics and serialized types. -/
def tag : Kind → String
  | builtin .boolean => "Bool"
  | kind => kind.name

def all : List Kind :=
  Builtin.all.map builtin ++ [enum, input, interface, object, scalar, union]

def ofTag? (tag : String) : Option Kind := all.find? fun kind => kind.tag = tag

def isLeaf : Kind → Bool
  | builtin _ | enum | scalar => true
  | input | interface | object | union => false

def isComposite : Kind → Bool
  | interface | object | union => true
  | builtin _ | enum | scalar | input => false

end Kind
end FieldLookahead.Schema
