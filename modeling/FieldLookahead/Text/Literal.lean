import FieldLookahead.Text.Extending
import FieldLookahead.Text.Ignorable
import FieldLookahead.Text.Nongraphic

/-! The notation in which diagnostics spell out data: text between quotes with escapes, named
records, bracketed lists, and values that may be missing. -/

namespace FieldLookahead.Text

def isVisible (character : Char) : Bool :=
  !isNongraphic character && !isExtending character && !isIgnorable character

/-- What stands for one character of a text literal; a hidden character is written by its
code in hexadecimal. -/
def spelled (character : Char) : List Char :=
  if character = '"' then ['\\', '"']
  else if character = '\\' then ['\\', '\\']
  else if character = '\n' then ['\\', 'n']
  else if character = '\r' then ['\\', 'r']
  else if character = '\t' then ['\\', 't']
  else if character.toNat = 0 then ['\\', '0']
  else if isVisible character then [character]
  else ['\\', 'u', '\x7b'] ++ Nat.toDigits 16 character.toNat ++ ['\x7d']

def literal (text : String) : String :=
  String.ofList ('"' :: (text.toList.flatMap spelled ++ ['"']))

def listing (items : List String) : String :=
  "[" ++ String.intercalate ", " items ++ "]"

def record (name : String) (fields : List (String × String)) : String :=
  name ++ " \x7b " ++
    String.intercalate ", " (fields.map fun (label, spelling) => label ++ ": " ++ spelling) ++
    " \x7d"

def maybe : Option String → String
  | none => "None"
  | some spelling => "Some(" ++ spelling ++ ")"

end FieldLookahead.Text
