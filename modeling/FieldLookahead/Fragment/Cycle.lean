import FieldLookahead.Fragment.Collection
import FieldLookahead.Seen

/-! Cycles of fragments that spread each other. -/

namespace FieldLookahead.Fragment

def least (first : String) (others : List String) : String :=
  others.foldl (fun best name => if name < best then name else best) first

/-- The rotation of a cycle's names that begins with the least of them. -/
def rotation : List String → List String
  | [] => []
  | first :: others =>
    let start := least first others
    (first :: others).dropWhile (· ≠ start) ++ (first :: others).takeWhile (· ≠ start)

/-- Cycles that differ in where they begin are the same; the first of them is kept. -/
def distinctCycles (known : Seen (List String)) : List (List String) → List (List String)
  | [] => []
  | cycle :: rest =>
    let normal := rotation cycle.dropLast
    if known.contains normal then distinctCycles known rest
    else cycle :: distinctCycles (known.push normal) rest

def closed (path : List String) (name : String) : List String :=
  name :: (path.takeWhile (· ≠ name)).reverse ++ [name]

/-- The cycles met on the way down from a name, where `path` holds the names above it; the
descent goes no deeper than a limit. -/
def cyclesBelow (next : String → List String) : Nat → Seen String → String → List (List String)
  | 0, _, _ => []
  | depth + 1, path, name =>
    if path.contains name then [closed path.list name]
    else (next name).flatMap (cyclesBelow next depth (path.push name))

namespace Collection

def spreadNames (collection : Collection) : OrderedMap String (List String) :=
  collection.sources.mapValues fun source =>
    (Query.spreadsOfAll source.fragment.selections).map Prod.fst

def spreadsOf (collection : Collection) (name : String) : List String :=
  (collection.spreadNames.get? name).getD []

/-- The cycles of the collection. A descent through distinct fragments has at most as many steps
as there are fragments, and one more step closes a cycle or ends at an undefined name. -/
def cycles (collection : Collection) : List (List String) :=
  let index := collection.spreadNames.index
  distinctCycles .empty (collection.names.flatMap
    (cyclesBelow (fun name => index[name]?.getD []) (collection.names.length + 1) .empty))

theorem cycles_eq (collection : Collection) :
    collection.cycles = distinctCycles .empty (collection.names.flatMap
      (cyclesBelow collection.spreadsOf (collection.names.length + 1) .empty)) := by
  have indexed : (fun name => collection.spreadNames.index[name]?.getD []) =
      collection.spreadsOf :=
    funext fun name => by rw [OrderedMap.getElem?_index]; rfl
  simp only [cycles, indexed]

/-- A fault for each place where a fragment spreads a name that is not in the collection. The
place tells no file. -/
def undefinedSpreads (collection : Collection) : List Fault :=
  collection.fragments.flatMap fun fragment =>
    (Query.spreadsOfAll fragment.selections).filterMap fun (name, position) =>
      if collection.sources.contains name then none
      else some (.undefined fragment.name name ⟨none, position⟩)

def faults (collection : Collection) : List Fault :=
  collection.cycles.map .cycle ++ collection.undefinedSpreads

end Collection
end FieldLookahead.Fragment
