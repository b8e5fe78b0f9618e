import FieldLookahead.Syntax.Position
import FieldLookahead.Syntax.Number
import FieldLookahead.Syntax.TextValue

/-! The words of a source text, each with the position where it begins. -/

namespace FieldLookahead.Syntax

inductive Mark where
  | bang | dollar | colon | equals | atSign | bar | ampersand | ellipsis
  deriving DecidableEq, Repr

inductive Bracket where
  | round | square | curly
  deriving DecidableEq, Repr

inductive Token where
  | name (text : String)
  | number
  | text (content : String)
  | mark (mark : Mark)
  | opening (bracket : Bracket)
  | closing (bracket : Bracket)
  deriving DecidableEq, Repr

namespace Token

def isNameStart (character : Char) : Bool := character = '_' || character.isAlpha

def isNamePart (character : Char) : Bool := isNameStart character || character.isDigit

def endsNumber (character : Char) : Bool :=
  [' ', '\n', '\r', '\t', ',', '#', '!', '$', ':', '=', '@', '|', '&', '(', ')', '[', ']', '\x7b',
    '\x7d'].contains character

def punctuation? : Char → Option Token
  | '!' => some (.mark .bang)
  | '$' => some (.mark .dollar)
  | ':' => some (.mark .colon)
  | '=' => some (.mark .equals)
  | '@' => some (.mark .atSign)
  | '|' => some (.mark .bar)
  | '&' => some (.mark .ampersand)
  | '(' => some (.opening .round)
  | ')' => some (.closing .round)
  | '[' => some (.opening .square)
  | ']' => some (.closing .square)
  | '\x7b' => some (.opening .curly)
  | '\x7d' => some (.closing .curly)
  | _ => none

/-- The token that begins with `first`, and how many characters of the rest belong to it. -/
def lexeme? (first : Char) (rest : List Char) : Option (Token × Nat) :=
  if isNameStart first then
    let part := rest.takeWhile isNamePart
    some (.name (String.ofList (first :: part)), part.length)
  else if first = '-' || first.isDigit then
    let part := rest.takeWhile fun character => !endsNumber character
    if Number.isNumber (first :: part) then some (.number, part.length) else none
  else if first = '"' then
    match rest with
    | '"' :: '"' :: block => do
      let body ← TextValue.blockBody? false block
      pure (.text (String.ofList (TextValue.blockContent body)), body.length + 5)
    | _ => do
      let body ← TextValue.quotedBody? rest
      let content ← TextValue.unescape? body
      pure (.text (String.ofList content), body.length + 1)
  else if first = '.' then
    match rest with
    | '.' :: '.' :: _ => some (.mark .ellipsis, 2)
    | _ => none
  else (punctuation? first).map (·, 0)

/-- The text and its position after what may stand between tokens: byte order marks, line ends,
tabs, spaces, commas and comments. A line end also ends a comment, and then counts as a line. -/
def skipIgnored (inComment : Bool) (position : Position) :
    List Char → Position × List Char
  | [] => (position, [])
  | character :: rest =>
    if inComment then
      if character = '\n' || character = '\r' then skipIgnored false position.nextLine rest
      else skipIgnored true position rest
    else if character = '#' then skipIgnored true position rest
    else if character = '\n' then skipIgnored false position.nextLine rest
    else if character = ' ' || character = ',' then skipIgnored false (position.right 1) rest
    else if character = '\t' then skipIgnored false (position.right 8) rest
    else if character = '\r' || character = '\uFEFF' then skipIgnored false position rest
    else (position, character :: rest)

theorem length_skipIgnored (inComment : Bool) (position : Position) (text : List Char) :
    (skipIgnored inComment position text).2.length ≤ text.length := by
  induction text generalizing inComment position with
  | nil => simp [skipIgnored]
  | cons character rest ih =>
    simp only [skipIgnored, List.length_cons]
    repeat' split
    all_goals first
      | exact Nat.le_succ_of_le (ih ..)
      | simp

def scanFrom? (position : Position) (text : List Char) : Option (List (Token × Position)) :=
  match _skipped : skipIgnored false position text with
  | (_, []) => some []
  | (start, first :: rest) =>
    match lexeme? first rest with
    | none => none
    | some (token, count) =>
      (scanFrom? (start.after (first :: rest.take count)) (rest.drop count)).map
        ((token, start) :: ·)
  termination_by text.length
  decreasing_by
    have shorter := length_skipIgnored false position text
    rw [_skipped] at shorter
    simp only [List.length_cons, List.length_drop] at *
    omega

def scan? (text : String) : Option (List (Token × Position)) :=
  scanFrom? .start text.toList

end Token
end FieldLookahead.Syntax
