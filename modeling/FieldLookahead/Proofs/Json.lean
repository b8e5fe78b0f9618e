import FieldLookahead.Json
import FieldLookahead.Proofs.Syntax.Word
import FieldLookahead.Proofs.Text.Quoted

namespace FieldLookahead.Json

/-! The compact form of a JSON tree can be read in one way only. The first character tells the form
of the tree, and the characters after that tell where each of its parts ends. -/

open Syntax (numeral_append_inj exists_digit_numeral)
open Text (quoted_append_inj)

variable {one other : Json} {rest rest' : List Char}

def characters (json : Json) : List Char := json.compact.toList

def memberCharacters (member : String × Json) : List Char :=
  (Text.quoted member.1).toList ++ ':' :: member.2.characters

theorem characters_array (items : List Json) :
    (array items).characters = '[' :: ([','].intercalate (items.map characters) ++ [']']) := by
  have texts : (compactItems items).map String.toList = items.map characters := by
    induction items with
    | nil => rfl
    | cons item rest ih => rw [compactItems, List.map_cons, ih, List.map_cons, characters]
  simp [characters, compact, texts]

theorem characters_object (members : List (String × Json)) :
    (object members).characters =
      '\x7b' :: ([','].intercalate (members.map memberCharacters) ++ ['\x7d']) := by
  have texts : (compactMembers members).map String.toList = members.map memberCharacters := by
    induction members with
    | nil => rfl
    | cons member rest ih =>
        rw [compactMembers, List.map_cons, ih, List.map_cons, memberCharacters, characters]
        simp
  simp [characters, compact, texts]

/-! What a tree begins with. -/

/-- The first character of the compact form, where any digit counts as a zero. -/
def leading : Json → Char
  | null => 'n'
  | bool true => 't'
  | bool false => 'f'
  | number _ => '0'
  | text _ => '"'
  | array _ => '['
  | object _ => '\x7b'

theorem exists_leading (json : Json) :
    ∃ first more, json.characters = first :: more ∧
      (if first.isDigit then '0' else first) = json.leading := by
  cases json with
  | null => exact ⟨_, _, rfl, rfl⟩
  | bool truth => cases truth <;> exact ⟨_, _, rfl, rfl⟩
  | number value =>
      obtain ⟨first, more, written, digit⟩ := exists_digit_numeral value
      exact ⟨first, more, written, if_pos digit⟩
  | text content => exact ⟨_, _, String.toList_ofList, rfl⟩
  | array items => exact ⟨_, _, characters_array items, rfl⟩
  | object members => exact ⟨_, _, characters_object members, rfl⟩

theorem leading_eq (same : one.characters ++ rest = other.characters ++ rest') :
    one.leading = other.leading := by
  obtain ⟨first, more, written, leads⟩ := exists_leading one
  obtain ⟨first', more', written', leads'⟩ := exists_leading other
  rw [written, written'] at same
  rw [← leads, ← leads', (List.cons.inj same).1]

/-- Two trees of one form; the two literals are forms of their own. -/
inductive SameForm : Json → Json → Prop
  | null : SameForm null null
  | bool (truth : Bool) : SameForm (bool truth) (bool truth)
  | number (value value' : Nat) : SameForm (number value) (number value')
  | text (content content' : String) : SameForm (text content) (text content')
  | array (items items' : List Json) : SameForm (array items) (array items')
  | object (members members' : List (String × Json)) : SameForm (object members) (object members')

theorem sameForm (same : one.characters ++ rest = other.characters ++ rest') :
    SameForm one other := by
  have leads := leading_eq same
  rcases one with _ | (_ | _) | _ | _ | _ | _ <;>
    rcases other with _ | (_ | _) | _ | _ | _ | _ <;>
    first | constructor | simp [leading] at leads

theorem opens_item (json : Json) : ∃ first more, json.characters = first :: more ∧ first ≠ ']' := by
  obtain ⟨first, more, written, leads⟩ := exists_leading json
  refine ⟨first, more, written, ?_⟩
  rintro rfl
  cases json with
  | bool truth => cases truth <;> simp [leading] at leads
  | _ => simp [leading] at leads

theorem opens_member (member : String × Json) :
    ∃ first more, memberCharacters member = first :: more ∧ first ≠ '\x7d' :=
  ⟨'"', _, by rw [memberCharacters, Text.quoted, String.toList_ofList, Text.quotedChars]; rfl,
    by decide⟩

/-! Where a tree ends. -/

def Ends (rest : List Char) : Prop := ∀ next ∈ rest.head?, next.isDigit = false

/-- What is written for one thing, and what follows it, can be told apart. -/
def Readable {α : Type} (write : α → List Char) (one : α) : Prop :=
  ∀ other rest rest', Ends rest → Ends rest' → write one ++ rest = write other ++ rest' →
    one = other ∧ rest = rest'

section Entries

variable {α : Type} {write : α → List Char} {closing : Char}

def following (write : α → List Char) (closing : Char) (rest : List Char) : List α → List Char
  | [] => closing :: rest
  | entry :: entries => ',' :: (write entry ++ following write closing rest entries)

theorem intercalate_cons (entry : α) (entries : List α) (rest : List Char) :
    [','].intercalate ((entry :: entries).map write) ++ closing :: rest =
      write entry ++ following write closing rest entries := by
  induction entries generalizing entry with
  | nil => simp [following]
  | cons next entries ih =>
      rw [List.map_cons, List.map_cons, List.intercalate_cons_cons, List.append_assoc,
        List.append_assoc, ← List.map_cons, ih, following]
      rfl

variable (closes : closing.isDigit = false)
include closes

theorem ends_following (rest : List Char) (entries : List α) :
    Ends (following write closing rest entries) := by
  intro next first
  cases entries <;> cases first
  · exact closes
  · rfl

variable (apart : closing ≠ ',')
include apart

theorem following_inj {entries entries' : List α}
    (readable : ∀ entry ∈ entries, Readable write entry)
    (same : following write closing rest entries = following write closing rest' entries') :
    entries = entries' ∧ rest = rest' := by
  induction entries generalizing entries' with
  | nil =>
      cases entries' with
      | nil => exact ⟨rfl, (List.cons.inj same).2⟩
      | cons => exact absurd (List.cons.inj same).1 apart
  | cons entry entries ih =>
      cases entries' with
      | nil => exact absurd (List.cons.inj same).1.symm apart
      | cons entry' entries' =>
          obtain ⟨here, there⟩ := List.forall_mem_cons.mp readable
          obtain ⟨rfl, onward⟩ := here entry' _ _ (ends_following closes _ _)
            (ends_following closes _ _) (List.cons.inj same).2
          obtain ⟨rfl, rfl⟩ := ih there onward
          exact ⟨rfl, rfl⟩

theorem entries_inj
    (opens : ∀ entry, ∃ first more, write entry = first :: more ∧ first ≠ closing)
    {entries entries' : List α} (readable : ∀ entry ∈ entries, Readable write entry)
    (same : [','].intercalate (entries.map write) ++ closing :: rest =
      [','].intercalate (entries'.map write) ++ closing :: rest') :
    entries = entries' ∧ rest = rest' := by
  cases entries with
  | nil =>
      cases entries' with
      | nil => exact ⟨rfl, (List.cons.inj same).2⟩
      | cons entry' _ =>
          obtain ⟨first, more, written, differs⟩ := opens entry'
          rw [intercalate_cons, written] at same
          exact absurd (List.cons.inj same).1.symm differs
  | cons entry entries =>
      cases entries' with
      | nil =>
          obtain ⟨first, more, written, differs⟩ := opens entry
          rw [intercalate_cons, written] at same
          exact absurd (List.cons.inj same).1 differs
      | cons entry' entries' =>
          rw [intercalate_cons, intercalate_cons] at same
          obtain ⟨here, there⟩ := List.forall_mem_cons.mp readable
          obtain ⟨rfl, onward⟩ := here entry' _ _ (ends_following closes _ _)
            (ends_following closes _ _) same
          obtain ⟨rfl, rfl⟩ := following_inj closes apart there onward
          exact ⟨rfl, rfl⟩

end Entries

mutual
theorem readable : (json : Json) → Readable characters json
  | .null => by
      intro other rest rest' _ _ same
      cases sameForm same with
      | null => exact ⟨rfl, List.append_cancel_left same⟩
  | .bool truth => by
      intro other rest rest' _ _ same
      cases sameForm same with
      | bool => exact ⟨rfl, List.append_cancel_left same⟩
  | .number value => by
      intro other rest rest' ends ends' same
      cases sameForm same with
      | number _ value' =>
          obtain ⟨rfl, onward⟩ := (numeral_append_inj ends ends').mp same
          exact ⟨rfl, onward⟩
  | .text content => by
      intro other rest rest' _ _ same
      cases sameForm same with
      | text _ content' =>
          obtain ⟨rfl, onward⟩ := quoted_append_inj.mp same
          exact ⟨rfl, onward⟩
  | .array items => by
      intro other rest rest' _ _ same
      cases sameForm same with
      | array _ items' =>
          simp only [characters_array, List.cons_append, List.append_assoc, List.nil_append,
            List.cons.injEq, true_and] at same
          obtain ⟨rfl, onward⟩ :=
            entries_inj (by decide) (by decide) opens_item (readableItems items) same
          exact ⟨rfl, onward⟩
  | .object members => by
      intro other rest rest' _ _ same
      cases sameForm same with
      | object _ members' =>
          simp only [characters_object, List.cons_append, List.append_assoc, List.nil_append,
            List.cons.injEq, true_and] at same
          obtain ⟨rfl, onward⟩ :=
            entries_inj (by decide) (by decide) opens_member (readableMembers members) same
          exact ⟨rfl, onward⟩

theorem readableItems : (items : List Json) → ∀ item ∈ items, Readable characters item
  | [] => by simp
  | item :: items => List.forall_mem_cons.mpr ⟨readable item, readableItems items⟩

theorem readableMembers : (members : List (String × Json)) →
    ∀ member ∈ members, Readable memberCharacters member
  | [] => by simp
  | (key, value) :: members => by
      refine List.forall_mem_cons.mpr ⟨?_, readableMembers members⟩
      rintro ⟨key', value'⟩ rest rest' ends ends' same
      simp only [memberCharacters, List.append_assoc, List.cons_append] at same
      obtain ⟨rfl, onward⟩ := quoted_append_inj.mp same
      obtain ⟨rfl, rfl⟩ := readable value value' rest rest' ends ends' (List.cons.inj onward).2
      exact ⟨rfl, rfl⟩
end

theorem compact_inj : one.compact = other.compact ↔ one = other := by
  refine ⟨fun same => ?_, congrArg compact⟩
  exact (readable one other [] [] (by simp [Ends]) (by simp [Ends])
    (congrArg (·.toList ++ []) same)).1

end FieldLookahead.Json
