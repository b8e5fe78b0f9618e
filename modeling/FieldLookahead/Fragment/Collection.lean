import FieldLookahead.OrderedMap
import FieldLookahead.Query.Document

/-! Fragments collected from documents, each name once. -/

namespace FieldLookahead.Fragment

open Syntax

inductive Fault where
  | repeated (name : String) (first second : Location)
  | cycle (path : List String)
  | undefined (fragment missing : String) (location : Location)
  deriving DecidableEq, Repr

def Fault.message : Fault → String
  | repeated name _ _ => "Duplicate fragment definition: `" ++ name ++ "`"
  | cycle path => "Fragment cycle detected: " ++ String.intercalate " → " path
  | undefined fragment missing _ =>
    "Fragment `" ++ fragment ++ "` spreads undefined fragment `" ++ missing ++ "`"

structure Source where
  fragment : Query.Fragment
  file? : Option String

def Source.location (source : Source) : Location := ⟨source.file?, source.fragment.position⟩

/-- Fragments, each under its own name, in the order in which they came. -/
structure Collection where
  sources : OrderedMap String Source
  named : ∀ entry ∈ sources.entries, entry.2.fragment.name = entry.1

namespace Collection

def empty : Collection := ⟨∅, by simp⟩

def fragments (collection : Collection) : List Query.Fragment :=
  collection.sources.values.map (·.fragment)

def names (collection : Collection) : List String := collection.sources.keys

def get? (collection : Collection) (name : String) : Option Query.Fragment :=
  (collection.sources.get? name).map (·.fragment)

def insert (collection : Collection) (source : Source) : Collection where
  sources := collection.sources.insert source.fragment.name source
  named entry member := by
    rcases Assoc.mem_insert member with rfl | member
    · rfl
    · exact collection.named entry member

def add (collection : Collection) (source : Source) : Except Fault Collection :=
  match collection.sources.get? source.fragment.name with
  | some first => .error (.repeated source.fragment.name first.location source.location)
  | none => .ok (collection.insert source)

/-- The collection with all fragments whose names are not taken, and a fault for each other. -/
def addAll (collection : Collection) : List Source → Collection × List Fault
  | [] => (collection, [])
  | source :: rest =>
    match collection.add source with
    | .ok larger => larger.addAll rest
    | .error fault =>
      let (larger, faults) := collection.addAll rest
      (larger, fault :: faults)

def addDocument (collection : Collection) (file? : Option String) (document : Query.Document) :
    Collection × List Fault :=
  collection.addAll (document.fragments.map (⟨·, file?⟩))

end Collection
end FieldLookahead.Fragment
