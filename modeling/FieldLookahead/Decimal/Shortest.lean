/-! The shortest decimal that reads back as a given binary number of 64 bits, computed exactly. -/

namespace FieldLookahead.Decimal

/-- A binary number of 64 bits: `mantissa · 2 ^ exponent` up to the sign, or no finite number. -/
inductive Binary where
  | finite (negative : Bool) (mantissa : Nat) (exponent : Int)
  | infinite (negative : Bool)
  | notANumber
  deriving DecidableEq, Repr

def Binary.ofBits (bits : UInt64) : Binary :=
  let negative := bits.toNat / Nat.pow 2 63 = 1
  let exponent : Nat := bits.toNat / Nat.pow 2 52 % Nat.pow 2 11
  let fraction := bits.toNat % Nat.pow 2 52
  if exponent = 2047 then if fraction = 0 then .infinite negative else .notANumber
  else if exponent = 0 then .finite negative fraction (-1074)
  else .finite negative (Nat.pow 2 52 + fraction) ((exponent : Int) - 1075)

structure Interval where
  low : Nat
  value : Nat
  high : Nat
  denominator : Nat
  closed : Bool
  deriving DecidableEq, Repr

/-- The reals that round to `mantissa · 2 ^ exponent`. They reach half-way to both neighbours,
and the lower one is nearer where the exponent changes; a half rounds to an even mantissa. -/
def Interval.around (mantissa : Nat) (exponent : Int) : Interval :=
  let scale := Nat.pow 2 (exponent - 2).toNat
  { low := (4 * mantissa - (if mantissa = Nat.pow 2 52 ∧ -1074 < exponent then 1 else 2)) * scale
    value := 4 * mantissa * scale
    high := (4 * mantissa + 2) * scale
    denominator := Nat.pow 2 (2 - exponent).toNat
    closed := mantissa % 2 = 0 }

def Interval.contains (interval : Interval) (numerator denominator : Nat) : Bool :=
  let point := numerator * interval.denominator
  let low := interval.low * denominator
  let high := interval.high * denominator
  if interval.closed then low ≤ point && point ≤ high else low < point && point < high

/-- The multiple of `10 ^ exponent` that is nearest to the value, if one of the two next to the
value lies in the interval. Of two equally near multiples it is the greater. -/
def Interval.multiple? (interval : Interval) (exponent : Int) : Option Nat :=
  let unit := Nat.pow 10 exponent.toNat
  let parts := Nat.pow 10 (-exponent).toNat
  let value := interval.value * parts
  let width := unit * interval.denominator
  let below := value / width
  let nearerBelow := value - below * width < (below + 1) * width - value
  let hasBelow := interval.contains (below * unit) parts
  let hasAbove := interval.contains ((below + 1) * unit) parts
  if hasBelow && (nearerBelow || !hasAbove) then some below
  else if hasAbove then some (below + 1)
  else none

def Interval.coarsest? (interval : Interval) : Nat → Int → Option (Nat × Int)
  | 0, _ => none
  | steps + 1, exponent =>
    match interval.multiple? exponent with
    | some digits => some (digits, exponent)
    | none => interval.coarsest? steps (exponent - 1)

/-- The fewest digits, and the power of ten of the last of them, that read back as
`mantissa · 2 ^ exponent`. Powers from above the greatest number to below the least suffice. -/
def shortest (mantissa : Nat) (exponent : Int) : Nat × Int :=
  ((Interval.around mantissa exponent).coarsest? 700 310).getD (0, 0)

def positional (digits : Nat) (exponent : Int) : String :=
  let text := Nat.toDigits 10 digits
  let places := (-exponent).toNat
  if places = 0 then String.ofList (text ++ List.replicate exponent.toNat '0')
  else
    let padded := List.replicate (places + 1 - text.length) '0' ++ text
    let whole := padded.length - places
    String.ofList (padded.take whole ++ '.' :: padded.drop whole)

def shortestText (mantissa : Nat) (exponent : Int) : String :=
  let (digits, power) := shortest mantissa exponent
  positional digits power

end FieldLookahead.Decimal
