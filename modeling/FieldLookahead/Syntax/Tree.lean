import FieldLookahead.Syntax.Token

/-! Token sequences in which each pair of brackets has become one node. -/

namespace FieldLookahead.Syntax

inductive Tree where
  | leaf (token : Token) (position : Position)
  | group (bracket : Bracket) (position : Position) (content : List Tree)

namespace Tree

def depthLimit : Nat := 50

/-- A bracket that is still open, with what stands before it in reverse order. -/
structure Open where
  bracket : Bracket
  position : Position
  before : List Tree

/-- Nests the tokens that follow, where `current` holds in reverse order what has been read
inside the innermost open bracket. -/
def nest? (opened : List Open) (current : List Tree) :
    List (Token × Position) → Option (List Tree)
  | [] => if opened.isEmpty then some current.reverse else none
  | (.opening bracket, position) :: rest =>
    if opened.length < depthLimit then nest? (⟨bracket, position, current⟩ :: opened) [] rest
    else none
  | (.closing bracket, _) :: rest =>
    match opened with
    | [] => none
    | outer :: others =>
      if outer.bracket = bracket then
        nest? others (.group bracket outer.position current.reverse :: outer.before) rest
      else none
  | (token, position) :: rest => nest? opened (.leaf token position :: current) rest

def scan? (text : String) : Option (List Tree) :=
  (Token.scan? text).bind (nest? [] [])

def position : Tree → Position
  | leaf _ position => position
  | group _ position _ => position

/-- Reads items one after another to the end; none if an item cannot be read, or if reading it
takes nothing. -/
def readAll? {α : Type} (item? : List Tree → Option (α × List Tree)) (trees : List Tree) :
    Option (List α) :=
  match trees with
  | [] => some []
  | tree :: others =>
    match item? (tree :: others) with
    | none => none
    | some (item, rest) =>
      if rest.length ≤ others.length then (readAll? item? rest).map (item :: ·) else none
  termination_by trees.length

def readSome? {α : Type} (item? : List Tree → Option (α × List Tree)) (trees : List Tree) :
    Option (List α) :=
  if trees.isEmpty then none else readAll? item? trees

end Tree
end FieldLookahead.Syntax
