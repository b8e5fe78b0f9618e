/-! Classes of characters given by ranges of code points. -/

namespace FieldLookahead.Text

abbrev CodeRange := Nat × Nat

/-- Whether some range of an ascending list has the character. -/
def isAmong : List CodeRange → Char → Bool
  | [], _ => false
  | (first, last) :: rest, character =>
    if character.toNat < first then false
    else character.toNat ≤ last || isAmong rest character

end FieldLookahead.Text
