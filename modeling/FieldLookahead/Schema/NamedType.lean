import FieldLookahead.OrderedMap
import FieldLookahead.Schema.Kind
import FieldLookahead.Schema.TypeReference
import FieldLookahead.Syntax.Position

/-! The types of a schema, and the table that files them under their names. -/

namespace FieldLookahead.Schema

open Syntax

structure Field where
  name : String
  owner : String
  type : TypeReference
  parameters : OrderedMap String TypeReference
  description? : Option String
  location : Location
  deriving DecidableEq

structure Heading where
  name : String
  description? : Option String
  location : Location
  deriving DecidableEq, Repr

/-- What an object or interface type lists: the interfaces it implements, and its fields. -/
structure Shape where
  interfaces : List String
  fields : OrderedMap String Field
  deriving DecidableEq

def Shape.empty : Shape := ⟨[], ∅⟩

inductive NamedType where
  | builtin (which : Builtin)
  | scalar (heading : Heading)
  | object (heading : Heading) (shape : Shape)
  | interface (heading : Heading) (shape : Shape)
  | union (heading : Heading) (members : List String)
  | enum (heading : Heading) (values : List String)
  | input (heading : Heading) (fields : OrderedMap String TypeReference)
  deriving DecidableEq

namespace NamedType

def heading? : NamedType → Option Heading
  | builtin _ => none
  | scalar heading => some heading
  | object heading _ => some heading
  | interface heading _ => some heading
  | union heading _ => some heading
  | enum heading _ => some heading
  | input heading _ => some heading

def name : NamedType → String
  | builtin which => which.name
  | scalar heading => heading.name
  | object heading _ => heading.name
  | interface heading _ => heading.name
  | union heading _ => heading.name
  | enum heading _ => heading.name
  | input heading _ => heading.name

def kind : NamedType → Kind
  | builtin which => .builtin which
  | scalar _ => .scalar
  | object _ _ => .object
  | interface _ _ => .interface
  | union _ _ => .union
  | enum _ _ => .enum
  | input _ _ => .input

def location? (type : NamedType) : Option Location := type.heading?.map (·.location)

def shape? : NamedType → Option Shape
  | object _ shape => some shape
  | interface _ shape => some shape
  | _ => none

def isObject : NamedType → Bool
  | object _ _ => true
  | _ => false

def isInterface : NamedType → Bool
  | interface _ _ => true
  | _ => false

end NamedType

def placeText : Option Location → String
  | none => "<graphql built-in>"
  | some location => location.text

/-- Types, each filed under its own name. -/
structure TypeTable where
  byName : OrderedMap String NamedType
  named : ∀ entry ∈ byName.entries, entry.2.name = entry.1

namespace TypeTable

def empty : TypeTable := ⟨∅, by simp⟩

/-- Files a type under its name, in the place of the type that had the name if there is one. -/
def insert (table : TypeTable) (type : NamedType) : TypeTable where
  byName := table.byName.insert type.name type
  named entry member := by
    rcases Assoc.mem_insert member with rfl | member
    · rfl
    · exact table.named entry member

def builtins : TypeTable :=
  Builtin.all.foldl (fun table which => table.insert (.builtin which)) empty

def get? (table : TypeTable) (name : String) : Option NamedType := table.byName.get? name

def types (table : TypeTable) : List NamedType := table.byName.values

def contains (table : TypeTable) (name : String) : Bool := (table.get? name).isSome

theorem name_of_get? {table : TypeTable} {name : String} {type : NamedType}
    (found : table.get? name = some type) : type.name = name :=
  table.named (name, type) (OrderedMap.get?_eq_some.mp found)

def isObject (table : TypeTable) (name : String) : Bool :=
  match table.get? name with
  | some type => type.isObject
  | none => false

def ObjectName (table : TypeTable) : Type := { name : String // table.isObject name = true }

end TypeTable
end FieldLookahead.Schema
