import FieldLookahead.Query.Document
import Mathlib.Data.List.Basic

namespace FieldLookahead.Query

/-! Places in selections: the indexes that lead to a selection through the fields and inline
fragments around it. The order of the document is the lexicographic order of the places. -/

def Selection.enclosed : Selection → List Selection
  | field _ below => below
  | spread _ _ => []
  | inline _ _ below => below

/-- A selection stands at a place among some selections. -/
inductive StandsAt (selection : Selection) : List Selection → List Nat → Prop
  | here {selections : List Selection} {index : Nat}
      (item : selections[index]? = some selection) : StandsAt selection selections [index]
  | under {selections : List Selection} {index : Nat} {outer : Selection} {path : List Nat}
      (item : selections[index]? = some outer)
      (inside : StandsAt selection outer.enclosed path) :
      StandsAt selection selections (index :: path)

namespace StandsAt

variable {selection first : Selection} {rest : List Selection} {path : List Nat}

theorem not_nil : ¬ StandsAt selection [] path := by
  intro stands
  cases stands with
  | here item | under item _ => cases item

theorem zero_iff :
    StandsAt selection (first :: rest) (0 :: path) ↔
      path = [] ∧ first = selection ∨ StandsAt selection first.enclosed path := by
  constructor
  · intro stands
    cases stands with
    | here item => exact .inl ⟨rfl, Option.some.inj item⟩
    | under item inside =>
        cases item
        exact .inr inside
  · rintro (⟨rfl, rfl⟩ | inside)
    · exact .here rfl
    · exact .under rfl inside

theorem succ_iff {index : Nat} :
    StandsAt selection (first :: rest) ((index + 1) :: path) ↔
      StandsAt selection rest (index :: path) := by
  constructor
  · intro stands
    cases stands with
    | here item => exact .here item
    | under item inside => exact .under item inside
  · intro stands
    cases stands with
    | here item => exact .here item
    | under item inside => exact .under item inside

theorem enclosed {selections : List Selection} {inner : Selection} {index : Nat}
    (stands : StandsAt selection selections path)
    (item : selection.enclosed[index]? = some inner) :
    StandsAt inner selections (path ++ [index]) := by
  induction stands with
  | here outer => exact .under outer (.here item)
  | under outer _ ih => exact .under outer ih

end StandsAt

structure Spread where
  path : List Nat
  fragment : String
  position : Syntax.Position

namespace Spread

def selection (spread : Spread) : Selection := .spread spread.fragment spread.position

def under (index : Nat) (spread : Spread) : Spread :=
  { spread with path := index :: spread.path }

end Spread

mutual
def Selection.placedSpreads : Selection → List Spread
  | .field _ below => placedSpreadsFrom 0 below
  | .spread fragment position => [⟨[], fragment, position⟩]
  | .inline _ _ below => placedSpreadsFrom 0 below
  termination_by structural selection => selection

def placedSpreadsFrom (index : Nat) : List Selection → List Spread
  | [] => []
  | selection :: rest =>
    selection.placedSpreads.map (·.under index) ++ placedSpreadsFrom (index + 1) rest
  termination_by structural selections => selections
end

/-- The spreads in selections with their places, in document order. -/
def placedSpreads (selections : List Selection) : List Spread := placedSpreadsFrom 0 selections

mutual
theorem Selection.map_placedSpreads :
    ∀ selection : Selection,
      selection.placedSpreads.map (fun spread => (spread.fragment, spread.position)) =
        selection.spreads
  | .field _ below => map_placedSpreadsFrom 0 below
  | .spread _ _ => rfl
  | .inline _ _ below => map_placedSpreadsFrom 0 below

theorem map_placedSpreadsFrom (index : Nat) :
    ∀ selections : List Selection,
      (placedSpreadsFrom index selections).map
          (fun spread => (spread.fragment, spread.position)) = spreadsOfAll selections
  | [] => rfl
  | selection :: rest => by
      rw [placedSpreadsFrom, spreadsOfAll, List.map_append, map_placedSpreadsFrom (index + 1) rest,
        ← selection.map_placedSpreads, List.map_map]
      rfl
end

theorem map_placedSpreads (selections : List Selection) :
    (placedSpreads selections).map (fun spread => (spread.fragment, spread.position)) =
      spreadsOfAll selections :=
  map_placedSpreadsFrom 0 selections

def Spread.StandsFrom (spread : Spread) (index : Nat) (selections : List Selection) : Prop :=
  ∃ offset inner, spread.path = (index + offset) :: inner ∧
    StandsAt spread.selection selections (offset :: inner)

theorem Spread.standsFrom_zero {spread : Spread} {selections : List Selection} :
    spread.StandsFrom 0 selections ↔ StandsAt spread.selection selections spread.path := by
  constructor
  · rintro ⟨offset, inner, placed, stands⟩
    rw [placed, Nat.zero_add]
    exact stands
  · intro stands
    cases placed : spread.path with
    | nil =>
        rw [placed] at stands
        cases stands
    | cons index inner => exact ⟨index, inner, by rw [Nat.zero_add, placed], placed ▸ stands⟩

theorem Spread.standsFrom_cons {spread : Spread} {index : Nat} {first : Selection}
    {rest : List Selection} :
    spread.StandsFrom index (first :: rest) ↔
      (∃ inner, spread.path = index :: inner ∧
        (inner = [] ∧ first = spread.selection ∨
          StandsAt spread.selection first.enclosed inner)) ∨
        spread.StandsFrom (index + 1) rest := by
  constructor
  · rintro ⟨offset, inner, placed, stands⟩
    cases offset with
    | zero => exact .inl ⟨inner, placed, StandsAt.zero_iff.mp stands⟩
    | succ offset =>
        refine .inr ⟨offset, inner, ?_, StandsAt.succ_iff.mp stands⟩
        rw [placed, Nat.add_right_comm, Nat.add_assoc]
  · rintro (⟨inner, placed, stands⟩ | ⟨offset, inner, placed, stands⟩)
    · exact ⟨0, inner, placed, StandsAt.zero_iff.mpr stands⟩
    · refine ⟨offset + 1, inner, ?_, StandsAt.succ_iff.mpr stands⟩
      rw [placed, Nat.add_right_comm, Nat.add_assoc]

mutual
theorem Selection.mem_placedSpreads_iff {spread : Spread} :
    ∀ selection : Selection, spread ∈ selection.placedSpreads ↔
      spread.path = [] ∧ selection = spread.selection ∨
        StandsAt spread.selection selection.enclosed spread.path
  | .field label below => by
      rw [Selection.placedSpreads, mem_placedSpreadsFrom_iff 0 below, Spread.standsFrom_zero]
      simp [Selection.enclosed, Spread.selection]
  | .spread fragment position => by
      obtain ⟨path, name, place⟩ := spread
      simp [Selection.placedSpreads, Selection.enclosed, Spread.selection, StandsAt.not_nil,
        eq_comm]
  | .inline condition? position below => by
      rw [Selection.placedSpreads, mem_placedSpreadsFrom_iff 0 below, Spread.standsFrom_zero]
      simp [Selection.enclosed, Spread.selection]

theorem mem_placedSpreadsFrom_iff {spread : Spread} (index : Nat) :
    ∀ selections : List Selection,
      spread ∈ placedSpreadsFrom index selections ↔ spread.StandsFrom index selections
  | [] => by
      rw [placedSpreadsFrom]
      refine ⟨fun member => (nomatch member), ?_⟩
      rintro ⟨_, _, _, stands⟩
      exact absurd stands StandsAt.not_nil
  | selection :: rest => by
      rw [placedSpreadsFrom, List.mem_append, Spread.standsFrom_cons,
        mem_placedSpreadsFrom_iff (index + 1) rest, List.mem_map]
      refine or_congr_left ⟨?_, ?_⟩
      · rintro ⟨inner, member, rfl⟩
        exact ⟨inner.path, rfl, (selection.mem_placedSpreads_iff).mp member⟩
      · rintro ⟨path, placed, stands⟩
        refine ⟨{ spread with path }, (selection.mem_placedSpreads_iff).mpr stands, ?_⟩
        rw [Spread.under, ← placed]
end

/-- The listing of spreads leaves out none and invents none. -/
theorem mem_placedSpreads_iff {spread : Spread} {selections : List Selection} :
    spread ∈ placedSpreads selections ↔ StandsAt spread.selection selections spread.path := by
  rw [placedSpreads, mem_placedSpreadsFrom_iff, Spread.standsFrom_zero]

mutual
theorem Selection.ordered_placedSpreads :
    ∀ selection : Selection, selection.placedSpreads.Pairwise (·.path < ·.path)
  | .field _ below => ordered_placedSpreadsFrom 0 below
  | .spread _ _ => List.pairwise_singleton _ _
  | .inline _ _ below => ordered_placedSpreadsFrom 0 below

theorem ordered_placedSpreadsFrom (index : Nat) :
    ∀ selections : List Selection,
      (placedSpreadsFrom index selections).Pairwise (·.path < ·.path)
  | [] => .nil
  | selection :: rest => by
      rw [placedSpreadsFrom]
      refine List.pairwise_append.mpr ⟨List.pairwise_map.mpr ?_,
        ordered_placedSpreadsFrom (index + 1) rest, ?_⟩
      · exact selection.ordered_placedSpreads.imp fun before =>
          List.cons_lt_cons_iff.mpr (.inr ⟨rfl, before⟩)
      · intro left leftMember right rightMember
        obtain ⟨inner, _, rfl⟩ := List.mem_map.mp leftMember
        obtain ⟨offset, path, placed, _⟩ := (mem_placedSpreadsFrom_iff _ rest).mp rightMember
        rw [placed]
        exact List.cons_lt_cons_iff.mpr (.inl (by omega))
end

theorem ordered_placedSpreads (selections : List Selection) :
    (placedSpreads selections).Pairwise (·.path < ·.path) :=
  ordered_placedSpreadsFrom 0 selections

theorem mem_spreadsOfAll_iff {selections : List Selection} {fragment : String}
    {position : Syntax.Position} :
    (fragment, position) ∈ spreadsOfAll selections ↔
      ∃ path, StandsAt (.spread fragment position) selections path := by
  rw [← map_placedSpreads, List.mem_map]
  constructor
  · rintro ⟨spread, member, same⟩
    cases same
    exact ⟨spread.path, mem_placedSpreads_iff.mp member⟩
  · rintro ⟨path, stands⟩
    exact ⟨⟨path, fragment, position⟩, mem_placedSpreads_iff.mpr stands, rfl⟩

end FieldLookahead.Query
