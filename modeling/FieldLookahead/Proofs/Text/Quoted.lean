import FieldLookahead.Syntax.TextValue
import FieldLookahead.Text.Quoted
import Mathlib.Tactic.SplitIfs

namespace FieldLookahead.Text

/-! Quoted text reads back as what was quoted, up to its closing quote and with whatever follows. -/

open Syntax.TextValue (hexValue?)

def unescaped : Char → Char
  | 'b' => '\x08'
  | 'f' => '\x0C'
  | 'n' => '\n'
  | 'r' => '\r'
  | 't' => '\t'
  | mark => mark

def coded? (high low : Char) : Option Char := do
  pure (Char.ofNat (16 * (← hexValue? high) + (← hexValue? low)))

/-- The text up to the closing quote, and what follows the quote. -/
def unquoted? : List Char → Option (List Char × List Char)
  | [] => none
  | '"' :: rest => some ([], rest)
  | '\\' :: 'u' :: '0' :: '0' :: high :: low :: rest =>
    (coded? high low).bind fun character => (unquoted? rest).map (Prod.map (character :: ·) id)
  | '\\' :: mark :: rest => (unquoted? rest).map (Prod.map (unescaped mark :: ·) id)
  | character :: rest => (unquoted? rest).map (Prod.map (character :: ·) id)

theorem hexValue?_hexDigit : ∀ value < 16, hexValue? (hexDigit value) = some value := by
  decide

theorem coded?_hexDigit {character : Char} (control : character.toNat < 0x20) :
    coded? (hexDigit (character.toNat / 16)) (hexDigit (character.toNat % 16)) =
      some character := by
  rw [coded?, hexValue?_hexDigit _ (by omega), hexValue?_hexDigit _ (by omega)]
  change some (Char.ofNat (16 * (character.toNat / 16) + character.toNat % 16)) = _
  rw [Nat.div_add_mod, Char.ofNat_toNat]

theorem unquoted?_escaped (character : Char) (rest : List Char) :
    unquoted? (escaped character ++ rest) =
      (unquoted? rest).map (Prod.map (character :: ·) id) := by
  rw [escaped]
  split_ifs with quote backslash backspace formFeed lineFeed carriageReturn tab control
  case pos => simp [unquoted?, unescaped, quote]
  case pos => simp [unquoted?, unescaped, backslash]
  case pos => simp [unquoted?, unescaped, backspace]
  case pos => simp [unquoted?, unescaped, formFeed]
  case pos => simp [unquoted?, unescaped, lineFeed]
  case pos => simp [unquoted?, unescaped, carriageReturn]
  case pos => simp [unquoted?, unescaped, tab]
  case pos => simp [unquoted?, coded?_hexDigit control]
  case neg => simp [unquoted?, backslash]

theorem unquoted?_quoted (text rest : List Char) :
    unquoted? (text.flatMap escaped ++ '"' :: rest) = some (text, rest) := by
  induction text with
  | nil => rfl
  | cons character text ih =>
      rw [List.flatMap_cons, List.append_assoc, unquoted?_escaped, ih]
      rfl

theorem quoted_append_inj {one other : String} {rest rest' : List Char} :
    (quoted one).toList ++ rest = (quoted other).toList ++ rest' ↔ one = other ∧ rest = rest' := by
  refine ⟨fun same => ?_, by rintro ⟨rfl, rfl⟩; rfl⟩
  simp only [quoted, quotedChars, String.toList_ofList, List.cons_append, List.append_assoc,
    List.nil_append, List.cons.injEq, true_and] at same
  have read := congrArg unquoted? same
  simpa [unquoted?_quoted, String.toList_inj] using read

end FieldLookahead.Text
