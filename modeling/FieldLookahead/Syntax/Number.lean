/-! Written numbers: which texts are integers and which are decimal fractions. -/

namespace FieldLookahead.Syntax.Number

def unsigned : List Char → List Char
  | '-' :: rest => rest
  | text => text

def isWhole (text : List Char) : Bool :=
  match unsigned text with
  | [] => false
  | ['0'] => true
  | '0' :: _ => false
  | digits => digits.all Char.isDigit

def value (digits : List Char) : Nat :=
  digits.foldl (fun total digit => total * 10 + (digit.toNat - 48)) 0

/-- A whole number of 64 bits in two's complement. -/
def isInteger (text : List Char) : Bool :=
  isWhole text &&
    match text with
    | '-' :: digits => value digits ≤ Nat.pow 2 63
    | digits => value digits < Nat.pow 2 63

def splitLast? (kind : Char → Bool) : List Char → Option (List Char × List Char)
  | [] => none
  | character :: rest =>
    match splitLast? kind rest with
    | some (before, after) => some (character :: before, after)
    | none => if kind character then some ([], rest) else none

/-- A sign and digits, or digits of which the first is 1 to 8. -/
def isExponent : List Char → Bool
  | [] => false
  | first :: rest =>
    if first = '+' || first = '-' then !rest.isEmpty && rest.all Char.isDigit
    else '1' ≤ first && first ≤ '8' && rest.all Char.isDigit

def isPointed (text : List Char) : Bool :=
  match splitLast? (· == '.') text with
  | none => isWhole text
  | some (whole, digits) => isWhole whole && !digits.isEmpty && digits.all Char.isDigit

def isExponentMark (character : Char) : Bool :=
  character = 'e' || character = 'E'

def isDecimal (text : List Char) : Bool :=
  match splitLast? isExponentMark text with
  | none => isPointed text
  | some (mantissa, exponent) => isPointed mantissa && isExponent exponent

def isNumber (text : List Char) : Bool :=
  if text.any fun character => character = '.' || isExponentMark character then isDecimal text
  else isInteger text

end FieldLookahead.Syntax.Number
