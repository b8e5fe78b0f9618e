import FieldLookahead.Text.CodeRange

/-! Characters with the Unicode property `White_Space`. -/

namespace FieldLookahead.Text

/-- The ranges of `White_Space`, each with both its ends. -/
def blankRanges : List CodeRange :=
  [(0x09, 0x0D), (0x20, 0x20), (0x85, 0x85), (0xA0, 0xA0), (0x1680, 0x1680),
   (0x2000, 0x200A), (0x2028, 0x2029), (0x202F, 0x202F), (0x205F, 0x205F),
   (0x3000, 0x3000)]

def isBlank (character : Char) : Bool := isAmong blankRanges character

def trimEnd (text : List Char) : List Char :=
  (text.reverse.dropWhile isBlank).reverse

end FieldLookahead.Text
