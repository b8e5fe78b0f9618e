import FieldLookahead.Seen
import FieldLookahead.Schema.NamedType

/-! Which object types implement an interface, directly or through other interfaces. -/

namespace FieldLookahead.Schema

def NamedType.superInterfaces : NamedType → List String
  | interface _ shape => shape.interfaces
  | _ => []

namespace TypeTable

def superInterfaces (table : TypeTable) (name : String) : List String :=
  (table.get? name).elim [] NamedType.superInterfaces

def interfaceNames (table : TypeTable) : List String :=
  table.types.filterMap fun
    | .interface heading _ => some heading.name
    | _ => none

def declarationCount (table : TypeTable) : Nat :=
  (table.types.flatMap NamedType.superInterfaces).length

/-- Adds to the found names the pending ones and all that follow them, in a number of steps. -/
def reach (next : String → List String) : Nat → Seen String → List String → Seen String
  | 0, found, _ => found
  | _ + 1, found, [] => found
  | steps + 1, found, name :: pending =>
    if found.contains name then reach next steps found pending
    else reach next steps (found.push name) (next name ++ pending)

/-- The interfaces reached from some interfaces through declarations, themselves included. Each
step takes away one pending name, and each declaration makes a name pending at most once. -/
def closure (table : TypeTable) (interfaces : List String) : Seen String :=
  reach table.superInterfaces (interfaces.length + table.declarationCount) .empty interfaces

/-- The object types in the order of their definition, each with the interfaces that it
implements, directly or through other interfaces. -/
def ancestries (table : TypeTable) : List (String × Seen String) :=
  let index := table.byName.index
  let declarations := table.declarationCount
  table.types.filterMap fun
    | .object heading shape =>
      some (heading.name,
        reach (fun name => index[name]?.elim [] NamedType.superInterfaces)
          (shape.interfaces.length + declarations) .empty shape.interfaces)
    | _ => none

theorem superInterfaces_indexed (table : TypeTable) :
    (fun name => table.byName.index[name]?.elim [] NamedType.superInterfaces) =
      table.superInterfaces :=
  funext fun name => by rw [OrderedMap.getElem?_index]; rfl

theorem ancestries_eq (table : TypeTable) :
    table.ancestries = table.types.filterMap fun
      | .object heading shape => some (heading.name, table.closure shape.interfaces)
      | _ => none := by
  simp only [ancestries, table.superInterfaces_indexed]
  rfl

def implementersAmong (ancestries : List (String × Seen String)) (interface : String) :
    List String :=
  ancestries.filterMap fun (object, interfaces) =>
    if interfaces.contains interface then some object else none

def implementations (table : TypeTable) : List (String × List String) :=
  let ancestries := table.ancestries
  table.interfaceNames.map fun interface => (interface, implementersAmong ancestries interface)

def anyAnswers? (test : String → Option Bool) : List String → Option Bool
  | [] => some false
  | name :: rest =>
    match test name with
    | none => none
    | some true => some true
    | some false => anyAnswers? test rest

/-- Looks for a name among some names and, below each in turn, among those that follow it; no
answer if the search goes deeper than a limit. -/
def search? (next : String → List String) (target : String) : Nat → List String → Option Bool
  | 0, _ => none
  | depth + 1, names =>
    anyAnswers? (fun name =>
      if name = target then some true else search? next target depth (next name)) names

/-- Whether a depth-first search finds an interface that a shape implements; no answer if the
search runs round a cycle before it finds one. -/
def implements? (table : TypeTable) (shape : Shape) (target : String) : Option Bool :=
  let index := table.byName.index
  search? (fun name => index[name]?.elim [] NamedType.superInterfaces) target
    (table.types.length + 1) shape.interfaces

theorem implements?_eq (table : TypeTable) (shape : Shape) (target : String) :
    table.implements? shape target =
      search? table.superInterfaces target (table.types.length + 1) shape.interfaces := by
  simp only [implements?, table.superInterfaces_indexed]

end TypeTable
end FieldLookahead.Schema
