import FieldLookahead.Proofs.Fragment.Cycles
import Mathlib.Data.Prod.Lex
import Mathlib.Order.WellFounded

namespace FieldLookahead.Query

mutual
def Selection.size : Selection → Nat
  | .field _ below => sizeOfAll below + 1
  | .spread _ _ => 1
  | .inline _ _ below => sizeOfAll below + 1
  termination_by structural selection => selection

def sizeOfAll : List Selection → Nat
  | [] => 0
  | selection :: rest => selection.size + sizeOfAll rest
  termination_by structural selections => selections
end

theorem size_enclosed_lt (selection : Selection) :
    sizeOfAll selection.enclosed < selection.size := by
  cases selection with
  | field label below => exact Nat.lt_succ_self _
  | spread name position => exact Nat.zero_lt_one
  | inline condition? position below => exact Nat.lt_succ_self _

end FieldLookahead.Query

namespace FieldLookahead.Fragment

open Query

/-! How far it is from selections to the end of every descent through fields, inline fragments
and spreads. Syntax does not bound a descent, since a spread leads to selections that are no
part of it; the fragments that are still below it do. -/

namespace Unfolded

mutual
def rank : Unfolded → Nat
  | field _ below => rankOfAll below
  | inline _ below => rankOfAll below
  | spread _ _ below => rankOfAll below + 1
  | unknown _ => 0
  termination_by structural selection => selection

def rankOfAll : List Unfolded → Nat
  | [] => 0
  | selection :: rest => max (rank selection) (rankOfAll rest)
  termination_by structural selections => selections
end

end Unfolded

namespace Table

variable {table : Table} {selection : Selection} {selections inner outer rest : List Selection}
  {name : String} {fragment : Query.Fragment} {position : Syntax.Position}

/-- How many fragments enclose each other at most below some selections. -/
def rank (table : Table) (selections : List Selection) : Nat :=
  Unfolded.rankOfAll (table.unfold selections)

theorem rank_cons (table : Table) (selection : Selection) (rest : List Selection) :
    table.rank (selection :: rest) = max (table.unfoldOne selection).rank (table.rank rest) := by
  rw [rank, unfold_cons, Unfolded.rankOfAll, rank]

theorem rank_spread (found : table.get? name = some fragment) :
    (table.unfoldOne (.spread name position)).rank = table.rank fragment.selections + 1 := by
  rw [unfoldOne_spread, unfoldNamed_found found, Unfolded.rank, rank]

theorem rank_enclosed (table : Table) (selection : Selection) :
    table.rank selection.enclosed ≤ (table.unfoldOne selection).rank := by
  cases selection with
  | field label below => rw [Selection.enclosed, unfoldOne_field, Unfolded.rank, rank]
  | inline condition? position below =>
      rw [Selection.enclosed, unfoldOne_inline, Unfolded.rank, rank]
  | spread name position => exact Nat.zero_le _

theorem rank_le_of_mem (member : selection ∈ selections) :
    (table.unfoldOne selection).rank ≤ table.rank selections := by
  induction selections with
  | nil => cases member
  | cons first rest ih =>
      rw [rank_cons]
      rcases List.mem_cons.mp member with rfl | member
      · exact Nat.le_max_left _ _
      · exact (ih member).trans (Nat.le_max_right _ _)

theorem rank_lt_of_standsAt {path : List Nat} (found : table.get? name = some fragment)
    (stands : StandsAt (.spread name position) selections path) :
    table.rank fragment.selections < table.rank selections := by
  induction stands with
  | here item =>
      rw [Nat.lt_iff_add_one_le, ← rank_spread found]
      exact rank_le_of_mem (List.mem_of_getElem? item)
  | @under selections index outer path item inside ih =>
      calc table.rank fragment.selections
        _ < table.rank outer.enclosed := ih
        _ ≤ (table.unfoldOne outer).rank := table.rank_enclosed outer
        _ ≤ table.rank selections := rank_le_of_mem (List.mem_of_getElem? item)

theorem rank_lt_of_spreads {one other : String} (spreads : table.collection.Spreads one other) :
    (table.unfoldNamed other).rank < (table.unfoldNamed one).rank := by
  obtain ⟨⟨fragment, found, position, path, stands⟩, defined⟩ := spreads
  obtain ⟨target, targetFound⟩ := Collection.mem_names_iff.mp defined
  change table.get? one = some fragment at found
  change table.get? other = some target at targetFound
  rw [unfoldNamed_found found, unfoldNamed_found targetFound, Unfolded.rank, Unfolded.rank]
  exact Nat.succ_lt_succ (rank_lt_of_standsAt targetFound stands)

theorem acyclic_spreads (table : Table) (name : String) :
    ¬ Relation.TransGen table.collection.Spreads name name := by
  have lower : ∀ {one other : String}, Relation.TransGen table.collection.Spreads one other →
      (table.unfoldNamed other).rank < (table.unfoldNamed one).rank := by
    intro one other leads
    induction leads with
    | single spreads => exact rank_lt_of_spreads spreads
    | tail _ spreads ih => exact (rank_lt_of_spreads spreads).trans ih
  exact fun leads => Nat.lt_irrefl _ (lower leads)

/-- A descent goes on from selections to the rest of them, to what the first one encloses, or to
the fragment that it spreads. -/
inductive Enters (table : Table) : List Selection → List Selection → Prop
  | rest {selection : Selection} {rest : List Selection} : Enters table rest (selection :: rest)
  | field {label : FieldLabel} {below rest : List Selection} :
      Enters table below (.field label below :: rest)
  | inline {condition? : Option String} {position : Syntax.Position}
      {below rest : List Selection} : Enters table below (.inline condition? position below :: rest)
  | spread {name : String} {position : Syntax.Position} {fragment : Query.Fragment}
      {rest : List Selection} (found : table.get? name = some fragment) :
      Enters table fragment.selections (.spread name position :: rest)

/-- The fragments that are still below some selections come first, and then their own size. -/
def weight (table : Table) (selections : List Selection) : Nat ×ₗ Nat :=
  toLex (table.rank selections, sizeOfAll selections)

theorem weight_lt_of_le (lower : table.rank inner ≤ table.rank outer)
    (smaller : sizeOfAll inner < sizeOfAll outer) : table.weight inner < table.weight outer :=
  Prod.Lex.toLex_lt_toLex.mpr (lower.lt_or_eq.imp id fun same => ⟨same, smaller⟩)

theorem weight_enclosed_lt (table : Table) (selection : Selection) (rest : List Selection) :
    table.weight selection.enclosed < table.weight (selection :: rest) := by
  refine weight_lt_of_le ?_ ?_
  · rw [rank_cons]
    exact (table.rank_enclosed selection).trans (Nat.le_max_left _ _)
  · rw [sizeOfAll]
    exact Nat.lt_of_lt_of_le (size_enclosed_lt selection) (Nat.le_add_right _ _)

theorem weight_lt_of_enters (enters : table.Enters inner outer) :
    table.weight inner < table.weight outer := by
  cases enters with
  | @rest selection _ =>
      refine weight_lt_of_le ?_ ?_
      · rw [rank_cons]
        exact Nat.le_max_right _ _
      · rw [sizeOfAll]
        have positive := size_enclosed_lt selection
        omega
  | @field label _ rest => exact table.weight_enclosed_lt (.field label inner) rest
  | @inline condition? position _ rest =>
      exact table.weight_enclosed_lt (.inline condition? position inner) rest
  | @spread name position fragment rest found =>
      -- Only here may there be more selections; there are fewer fragments below them.
      refine Prod.Lex.toLex_lt_toLex.mpr (.inl ?_)
      rw [rank_cons, rank_spread found]
      exact Nat.lt_of_lt_of_le (Nat.lt_succ_self _) (Nat.le_max_left _ _)

theorem wellFounded_enters (table : Table) : WellFounded table.Enters :=
  Subrelation.wf weight_lt_of_enters (InvImage.wf table.weight wellFounded_lt)

theorem inductionAll (table : Table) {Holds : List Selection → Prop} (nil : Holds [])
    (field : ∀ label below rest, Holds below → Holds rest → Holds (.field label below :: rest))
    (inline : ∀ condition? position below rest, Holds below → Holds rest →
      Holds (.inline condition? position below :: rest))
    (spread : ∀ name position fragment rest, table.get? name = some fragment →
      Holds fragment.selections → Holds rest → Holds (.spread name position :: rest))
    (missing : ∀ name position rest, table.get? name = none → Holds rest →
      Holds (.spread name position :: rest)) (selections : List Selection) :
    Holds selections := by
  induction selections using table.wellFounded_enters.induction with
  | _ selections ih =>
      match selections with
      | [] => exact nil
      | .field label below :: rest => exact field label below rest (ih _ .field) (ih _ .rest)
      | .inline condition? position below :: rest =>
          exact inline condition? position below rest (ih _ .inline) (ih _ .rest)
      | .spread name position :: rest =>
          cases found : table.get? name with
          | none => exact missing name position rest found (ih _ .rest)
          | some fragment =>
              exact spread name position fragment rest found (ih _ (.spread found)) (ih _ .rest)

end Table
end FieldLookahead.Fragment
