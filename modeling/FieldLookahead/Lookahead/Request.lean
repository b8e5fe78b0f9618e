import FieldLookahead.Attempt
import FieldLookahead.Json
import FieldLookahead.OrderedMap

/-! What is requested below a field: for each type that its value may have, the response keys,
and for each key that has sub-fields what is requested below it. -/

namespace FieldLookahead

inductive Request where
  | leaf
  | nested (below : List (String × List (String × Request)))
  deriving Inhabited

/-- Requests by response key. -/
abbrev Requests := List (String × Request)

/-- Requests by type. -/
abbrev Lookahead := List (String × Requests)

/-- A key that is requested both with and without sub-fields. -/
structure Clash where
  key : String
  deriving DecidableEq, Repr

mutual
def Request.absorb (key : String) (present : Request) : Request → Attempt Clash Request
  | .leaf =>
    match present with
    | .leaf => .done .leaf
    | .nested _ => .stopped present ⟨key⟩
  | .nested more =>
    match present with
    | .leaf => .stopped present ⟨key⟩
    | .nested below => (Lookahead.absorb below more).map .nested
  termination_by structural request => request

def Requests.absorb (present : Requests) : Requests → Attempt Clash Requests
  | [] => .done present
  | (key, request) :: rest =>
    match Assoc.get? key present with
    | none => Requests.absorb (Assoc.insert key request present) rest
    | some old =>
      ((Request.absorb key old request).map (Assoc.insert key · present)).andThen
        (Requests.absorb · rest)
  termination_by structural requests => requests

def Lookahead.absorb (present : Lookahead) : Lookahead → Attempt Clash Lookahead
  | [] => .done present
  | (typeName, requests) :: rest =>
    match Assoc.get? typeName present with
    | none => Lookahead.absorb (Assoc.insert typeName requests present) rest
    | some old =>
      ((Requests.absorb old requests).map (Assoc.insert typeName · present)).andThen
        (Lookahead.absorb · rest)
  termination_by structural lookahead => lookahead
end

namespace Request

def isLeaf : Request → Bool
  | leaf => true
  | nested _ => false

def nested? : Request → Option Lookahead
  | leaf => none
  | nested below => some below

end Request

mutual
/-- Equality that does not look at the order of entries. -/
def Request.agrees : Request → Request → Bool
  | .leaf, .leaf => true
  | .nested left, .nested right => left.length = right.length && Lookahead.within left right
  | _, _ => false
  termination_by structural request => request

def Requests.within : Requests → Requests → Bool
  | [], _ => true
  | (key, request) :: rest, other =>
    (match Assoc.get? key other with
      | none => false
      | some found => Request.agrees request found) && Requests.within rest other
  termination_by structural requests => requests

def Lookahead.within : Lookahead → Lookahead → Bool
  | [], _ => true
  | (typeName, requests) :: rest, other =>
    (match Assoc.get? typeName other with
      | none => false
      | some found => requests.length = found.length && Requests.within requests found) &&
    Lookahead.within rest other
  termination_by structural lookahead => lookahead
end

mutual
def Request.toJson : Request → Json
  | .leaf => .bool true
  | .nested below => .object (Lookahead.jsonMembers below)
  termination_by structural request => request

def Requests.jsonMembers : Requests → List (String × Json)
  | [] => []
  | (key, request) :: rest => (key, Request.toJson request) :: Requests.jsonMembers rest
  termination_by structural requests => requests

def Lookahead.jsonMembers : Lookahead → List (String × Json)
  | [] => []
  | (typeName, requests) :: rest =>
    (typeName, .object (Requests.jsonMembers requests)) :: Lookahead.jsonMembers rest
  termination_by structural lookahead => lookahead
end

def Requests.toJson (requests : Requests) : Json := .object (Requests.jsonMembers requests)

namespace Lookahead

def toJson (lookahead : Lookahead) : Json := .object (jsonMembers lookahead)

def ofTypes (typeNames : List String) : Lookahead :=
  Assoc.ofList (typeNames.map fun typeName => (typeName, []))

def merge (left right : Lookahead) : Except Clash Lookahead :=
  (absorb left right).finished

def agrees (left right : Lookahead) : Bool :=
  left.length = right.length && within left right

end Lookahead
end FieldLookahead
