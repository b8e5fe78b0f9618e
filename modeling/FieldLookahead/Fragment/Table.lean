import FieldLookahead.Fragment.Cycle

/-! Tables of fragments that are fit for use: no cycles, and no spreads of undefined names. -/

namespace FieldLookahead.Fragment

structure Table where
  collection : Collection
  sound : collection.faults = []

def Collection.table (collection : Collection) : Except (List Fault) Table :=
  if sound : collection.faults = [] then .ok ⟨collection, sound⟩
  else .error collection.faults

namespace Table

def empty : Table := ⟨.empty, rfl⟩

def fragments (table : Table) : List Query.Fragment := table.collection.fragments

def get? (table : Table) (name : String) : Option Query.Fragment := table.collection.get? name

def ofDocument (document : Query.Document) : Except (List Fault) Table :=
  match Collection.empty.addDocument none document with
  | (collection, []) => collection.table
  | (_, faults) => .error faults

end Table
end FieldLookahead.Fragment
