/-! Quoted text as JSON writes it: short escapes where they exist, `\u00xx` for the other
control characters, and every other character as it stands. -/

namespace FieldLookahead.Text

def hexDigit (value : Nat) : Char :=
  if value < 10 then Char.ofNat (48 + value) else Char.ofNat (87 + value)

def escaped (character : Char) : List Char :=
  if character = '"' then ['\\', '"']
  else if character = '\\' then ['\\', '\\']
  else if character = '\x08' then ['\\', 'b']
  else if character = '\x0C' then ['\\', 'f']
  else if character = '\n' then ['\\', 'n']
  else if character = '\r' then ['\\', 'r']
  else if character = '\t' then ['\\', 't']
  else if character.toNat < 0x20 then
    ['\\', 'u', '0', '0', hexDigit (character.toNat / 16), hexDigit (character.toNat % 16)]
  else [character]

def quotedChars (text : List Char) : List Char :=
  '"' :: (text.flatMap escaped ++ ['"'])

def quoted (text : String) : String :=
  String.ofList (quotedChars text.toList)

end FieldLookahead.Text
