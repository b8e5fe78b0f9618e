/-! Places in a source text. -/

namespace FieldLookahead.Syntax

structure Position where
  line : Nat
  column : Nat
  deriving DecidableEq, Repr

namespace Position

def start : Position := ⟨1, 1⟩

def right (position : Position) (columns : Nat) : Position :=
  ⟨position.line, position.column + columns⟩

def nextLine (position : Position) : Position := ⟨position.line + 1, 1⟩

/-- The position after a lexeme: each character takes a column, and a line feed starts the
next line. -/
def after (position : Position) (lexeme : List Char) : Position :=
  lexeme.foldl (fun place character =>
    if character = '\n' then place.nextLine else place.right 1) position

def text (position : Position) : String :=
  toString position.line ++ ":" ++ toString position.column

end Position

structure Location where
  file? : Option String
  position : Position
  deriving DecidableEq, Repr

def Location.text (location : Location) : String :=
  location.file?.getD "<str>" ++ ":" ++ location.position.text

end FieldLookahead.Syntax
