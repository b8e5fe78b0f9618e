import FieldLookahead.OrderedMap

/-! Values at run time. Lists and objects are nodes with an identity, so that a node met again
inside itself can be told from an equal one. -/

namespace FieldLookahead

inductive Value where
  | null
  | bool (truth : Bool)
  | int (value : Int)
  | float (bits : UInt64)
  | text (content : String)
  | enum (name : String)
  | list (node : Nat) (items : List Value)
  | object (node : Nat) (typeName? : Option String) (fields : List (String × Value))
  /-- A value that chooses by a hook what is shown in its place. -/
  | hooked (hook : String)
  deriving Repr, Inhabited

namespace Value

def isNull : Value → Bool
  | null => true
  | _ => false

/-- An object with some fields. A field that comes again keeps its place and takes the last
value. -/
def objectOf (node : Nat) (typeName? : Option String) (fields : List (String × Value)) : Value :=
  .object node typeName? (Assoc.ofList fields)

abbrev Hooks := List (String × Value)

end Value
end FieldLookahead
