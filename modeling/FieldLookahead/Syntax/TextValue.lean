import FieldLookahead.Text.Blank

/-! Written texts: where a quoted or a block text ends, and what it says. -/

namespace FieldLookahead.Syntax.TextValue

/-- The characters up to the closing quote; a backslash keeps the next character from closing,
and a line feed is refused. -/
def quotedBody? : List Char → Option (List Char)
  | [] => none
  | '"' :: _ => some []
  | '\n' :: _ => none
  | '\\' :: '\n' :: _ => none
  | '\\' :: character :: rest => (quotedBody? rest).map (['\\', character] ++ ·)
  | character :: rest => (quotedBody? rest).map (character :: ·)

def hexValue? (character : Char) : Option Nat :=
  if '0' ≤ character && character ≤ '9' then some (character.toNat - 48)
  else if 'a' ≤ character && character ≤ 'f' then some (character.toNat - 87)
  else if 'A' ≤ character && character ≤ 'F' then some (character.toNat - 55)
  else none

def hexNumber? (digits : List Char) : Option Nat :=
  digits.foldlM (fun total digit => (hexValue? digit).map (total * 16 + ·)) 0

/-- The character with a code that four characters write in hexadecimal, the first of which may
be a plus. -/
def coded? : List Char → Option Char
  | '+' :: digits => (hexNumber? digits).bind ofCode?
  | digits => (hexNumber? digits).bind ofCode?
where
  ofCode? (code : Nat) : Option Char :=
    if code.isValidChar then some (Char.ofNat code) else none

def simpleEscape? : Char → Option Char
  | '"' => some '"'
  | '\\' => some '\\'
  | '/' => some '/'
  | 'b' => some '\x10'
  | 'f' => some '\x0C'
  | 'n' => some '\n'
  | 'r' => some '\r'
  | 't' => some '\t'
  | _ => none

def unescape? : List Char → Option (List Char)
  | [] => some []
  | '\\' :: 'u' :: a :: b :: c :: d :: rest => do
    let character ← coded? [a, b, c, d]
    let others ← unescape? rest
    pure (character :: others)
  | '\\' :: mark :: rest => do
    let character ← simpleEscape? mark
    let others ← unescape? rest
    pure (character :: others)
  | '\\' :: [] => none
  | character :: rest => (unescape? rest).map (character :: ·)

/-- The characters up to three closing quotes; a backslash directly before three quotes makes
them content. -/
def blockBody? (afterBackslash : Bool) : List Char → Option (List Char)
  | [] => none
  | '"' :: '"' :: '"' :: rest =>
    if afterBackslash then (blockBody? false rest).map (['"', '"', '"'] ++ ·) else some []
  | character :: rest => (blockBody? (character = '\\') rest).map (character :: ·)

/-- The lines of a text; a line feed ends a line, together with a carriage return before it. -/
def lines : List Char → List (List Char)
  | [] => [[]]
  | '\n' :: rest => [] :: lines rest
  | '\r' :: '\n' :: rest => [] :: lines rest
  | character :: rest =>
    match lines rest with
    | [] => [[character]]
    | line :: others => (character :: line) :: others

def isBlankLine (line : List Char) : Bool := line.all Text.isBlank

def byteCount (text : List Char) : Nat :=
  text.foldl (fun total character => total + character.utf8Size) 0

def indent (line : List Char) : Nat := byteCount (line.takeWhile Text.isBlank)

def commonIndent? (lines : List (List Char)) : Option Nat :=
  ((lines.filter fun line => !isBlankLine line).map indent).min?

def dropBytes (count : Nat) : List Char → List Char
  | [] => []
  | character :: rest =>
    if count = 0 then character :: rest else dropBytes (count - character.utf8Size) rest

def outdent (common : Nat) (line : List Char) : List Char :=
  if common ≤ byteCount line then dropBytes common line else line

def unescapeBlock : List Char → List Char
  | [] => []
  | '\\' :: '"' :: '"' :: '"' :: rest => '"' :: '"' :: '"' :: unescapeBlock rest
  | character :: rest => character :: unescapeBlock rest

/-- What a block text says: the common indent of the lines after the first is left out, and so
are blank lines at both ends. -/
def blockContent (body : List Char) : List Char :=
  match lines body with
  | [] => []
  | first :: others =>
    let common := (commonIndent? others).getD 0
    let outdented := first :: others.map (outdent common)
    let kept := (outdented.dropWhile isBlankLine).reverse.dropWhile isBlankLine
    unescapeBlock (['\n'].intercalate kept.reverse)

end FieldLookahead.Syntax.TextValue
