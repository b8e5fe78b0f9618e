import FieldLookahead.Fragment.Table

/-! Selections in which every spread has become the fragment that it names. -/

namespace FieldLookahead.Fragment

open Query

inductive Unfolded where
  | field (label : FieldLabel) (below : List Unfolded)
  | inline (condition? : Option String) (below : List Unfolded)
  /-- A spread of a fragment, with the fragment's condition and selections. -/
  | spread (name condition : String) (below : List Unfolded)
  | unknown (name : String)
  deriving Repr

namespace Unfolded

mutual
def ofSelection (ofSpread : String → Unfolded) : Selection → Unfolded
  | .field label below => .field label (ofSelections ofSpread below)
  | .inline condition? _ below => .inline condition? (ofSelections ofSpread below)
  | .spread name _ => ofSpread name
  termination_by structural selection => selection

def ofSelections (ofSpread : String → Unfolded) : List Selection → List Unfolded
  | [] => []
  | selection :: rest => ofSelection ofSpread selection :: ofSelections ofSpread rest
  termination_by structural selections => selections
end

mutual
def height : Unfolded → Nat
  | field _ below => heightOfAll below + 1
  | inline _ below => heightOfAll below
  | spread _ _ below => heightOfAll below
  | unknown _ => 0
  termination_by structural selection => selection

def heightOfAll : List Unfolded → Nat
  | [] => 0
  | selection :: rest => max (height selection) (heightOfAll rest)
  termination_by structural selections => selections
end

end Unfolded

structure FieldNode where
  label : FieldLabel
  below : List Unfolded
  deriving Repr

namespace Table

def unfoldSpread (table : Table) : Nat → String → Unfolded
  | 0, name => .unknown name
  | depth + 1, name =>
    match table.get? name with
    | none => .unknown name
    | some fragment =>
      .spread name fragment.condition
        (Unfolded.ofSelections (table.unfoldSpread depth) fragment.selections)

/-- The selections with all spreads unfolded. In a table without cycles, no more fragments
enclose each other than there are. -/
def unfold (table : Table) (selections : List Selection) : List Unfolded :=
  Unfolded.ofSelections (table.unfoldSpread table.fragments.length) selections

end Table
end FieldLookahead.Fragment
