/-! Reading bytes as UTF-8, with the place and the extent of the first fault. -/

namespace FieldLookahead.Text.Utf8

inductive Fault where
  /-- `length` bytes from `start` begin a character, and the next byte cannot continue it;
  `length` is 1 if not even the first byte can begin one. -/
  | invalid (start length : Nat)
  | incomplete (start : Nat)
  deriving DecidableEq, Repr

def Fault.message : Fault → String
  | .invalid start length =>
    "invalid utf-8 sequence of " ++ toString length ++ " bytes from index " ++ toString start
  | .incomplete start => "incomplete utf-8 byte sequence from index " ++ toString start

/-- A character under way: the bits read so far, the number of bytes still owed (at least one),
and the range of the next of them. -/
structure Partial where
  start : Nat
  bits : Nat
  owed : Nat
  least : Nat
  greatest : Nat

def begin? (index byte : Nat) : Option (Char ⊕ Partial) :=
  if byte < 0x80 then some (.inl (Char.ofNat byte))
  else if byte < 0xC2 then none
  else if byte < 0xE0 then some (.inr ⟨index, byte - 0xC0, 1, 0x80, 0xBF⟩)
  else if byte < 0xF0 then
    some (.inr ⟨index, byte - 0xE0, 2, if byte = 0xE0 then 0xA0 else 0x80,
      if byte = 0xED then 0x9F else 0xBF⟩)
  else if byte < 0xF5 then
    some (.inr ⟨index, byte - 0xF0, 3, if byte = 0xF0 then 0x90 else 0x80,
      if byte = 0xF4 then 0x8F else 0xBF⟩)
  else none

/-- The characters of the bytes from `index` on, where `underway` holds a character that began
earlier. -/
def charsFrom (index : Nat) (underway : Option Partial) :
    List UInt8 → Except Fault (List Char)
  | [] =>
    match underway with
    | none => .ok []
    | some character => .error (.incomplete character.start)
  | byte :: rest =>
    match underway with
    | none =>
      match begin? index byte.toNat with
      | none => .error (.invalid index 1)
      | some (.inl character) => (charsFrom (index + 1) none rest).map (character :: ·)
      | some (.inr character) => charsFrom (index + 1) (some character) rest
    | some character =>
      if character.least ≤ byte.toNat && byte.toNat ≤ character.greatest then
        let bits := character.bits * 64 + (byte.toNat - 0x80)
        if character.owed ≤ 1 then
          (charsFrom (index + 1) none rest).map (Char.ofNat bits :: ·)
        else
          charsFrom (index + 1)
            (some ⟨character.start, bits, character.owed - 1, 0x80, 0xBF⟩) rest
      else .error (.invalid character.start (index - character.start))

def decode (bytes : List UInt8) : Except Fault String :=
  (charsFrom 0 none bytes).map String.ofList

end FieldLookahead.Text.Utf8
