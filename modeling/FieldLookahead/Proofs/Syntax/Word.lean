import FieldLookahead.Syntax.Token
import Mathlib.Data.List.Basic

namespace FieldLookahead.Syntax

/-! Names and numerals, by the characters that they have. A numeral consists of digits alone, and a
name does not begin with one. -/

def isName (name : String) : Bool :=
  match name.toList with
  | [] => false
  | first :: rest => Token.isNameStart first && rest.all Token.isNamePart

variable {name : String} {character : Char} {one other : Nat} {rest rest' : List Char}

theorem isName_iff :
    isName name = true ↔ ∃ first rest, name.toList = first :: rest ∧
      Token.isNameStart first = true ∧ ∀ part ∈ rest, Token.isNamePart part = true := by
  rw [isName]
  cases name.toList with
  | nil => simp
  | cons first rest => simp

theorem isNamePart_of_mem (named : isName name = true) (member : character ∈ name.toList) :
    Token.isNamePart character = true := by
  obtain ⟨first, rest, spelled, start, parts⟩ := isName_iff.mp named
  rw [spelled] at member
  rcases List.mem_cons.mp member with rfl | member
  · rw [Token.isNamePart, start, Bool.true_or]
  · exact parts character member

theorem notMem_of_isName (named : isName name = true)
    (other : Token.isNamePart character = false) : character ∉ name.toList := by
  intro member
  rw [isNamePart_of_mem named member] at other
  cases other

theorem toNat_of_isAlpha (letter : character.isAlpha = true) : 65 ≤ character.toNat := by
  rcases Bool.or_eq_true_iff.mp letter with upper | lower
  · exact (of_decide_eq_true upper).1
  · have low : 97 ≤ character.toNat := of_decide_eq_true (Bool.and_eq_true_iff.mp lower).1
    omega

theorem isDigit_eq_false_of_isNameStart (start : Token.isNameStart character = true) :
    character.isDigit = false := by
  simp only [Token.isNameStart, Bool.or_eq_true, decide_eq_true_eq] at start
  rcases start with rfl | letter
  · rfl
  · rw [← Bool.not_eq_true, Char.isDigit_iff_toNat]
    intro digit
    have low := toNat_of_isAlpha letter
    have high : character.toNat ≤ 57 := digit.2
    omega

theorem toList_numeral (number : Nat) : (toString number).toList = Nat.toDigits 10 number := by
  rw [Nat.toString_eq_ofList_toDigits, String.toList_ofList]

theorem numeral_inj : toString one = toString other ↔ one = other := by
  refine ⟨fun same => ?_, congrArg toString⟩
  have digits := congrArg String.toList same
  rw [toList_numeral, toList_numeral] at digits
  simpa only [Nat.ofDigitChars_ten_toDigits] using congrArg (Nat.ofDigitChars 10 · 0) digits

theorem isDigit_of_mem_numeral {number : Nat} (member : character ∈ (toString number).toList) :
    character.isDigit = true := by
  rw [toList_numeral] at member
  exact Nat.isDigit_of_mem_toDigits (by decide) (by decide) member

theorem exists_digit_numeral (number : Nat) :
    ∃ first rest, (toString number).toList = first :: rest ∧ first.isDigit = true := by
  obtain ⟨first, rest, written⟩ := List.exists_cons_of_ne_nil
    ((toList_numeral number).trans_ne Nat.toDigits_ne_nil)
  exact ⟨first, rest, written, isDigit_of_mem_numeral (written ▸ List.mem_cons_self)⟩

theorem numeral_ne_name (named : isName name = true) (number : Nat) : toString number ≠ name := by
  rintro rfl
  obtain ⟨first, _, written, digit⟩ := exists_digit_numeral number
  obtain ⟨first', _, spelled, start, _⟩ := isName_iff.mp named
  cases written.symm.trans spelled
  rw [isDigit_eq_false_of_isNameStart start] at digit
  cases digit

theorem numeral_append_inj (ends : ∀ next ∈ rest.head?, next.isDigit = false)
    (ends' : ∀ next ∈ rest'.head?, next.isDigit = false) :
    (toString one).toList ++ rest = (toString other).toList ++ rest' ↔
      one = other ∧ rest = rest' := by
  have digits {number : Nat} {rest : List Char} (ends : ∀ next ∈ rest.head?, next.isDigit = false) :
      ((toString number).toList ++ rest).takeWhile Char.isDigit = (toString number).toList := by
    rw [List.takeWhile_append_of_pos fun _ => isDigit_of_mem_numeral]
    cases rest with
    | nil => simp
    | cons next rest => simp [ends next rfl]
  refine ⟨fun same => ?_, by rintro ⟨rfl, rfl⟩; rfl⟩
  have numerals := congrArg (List.takeWhile Char.isDigit) same
  rw [digits ends, digits ends'] at numerals
  rw [numerals] at same
  exact ⟨numeral_inj.mp (String.toList_inj.mp numerals), List.append_cancel_left same⟩

end FieldLookahead.Syntax
