import FieldLookahead.Fragment.Unfolded
import Mathlib.Data.List.Nodup

namespace FieldLookahead.Fragment

open Query

/-! A fragment table has no cycles, so the depth to which spreads are unfolded is never reached:
every spread unfolds into the fragment that it names. -/

theorem cyclesBelow_succ (next : String → List String) (depth : Nat) (path : Seen String)
    (name : String) (acyclic : cyclesBelow next (depth + 1) path name = []) :
    name ∉ path.list ∧
      ∀ other ∈ next name, cyclesBelow next depth (path.push name) other = [] := by
  rw [cyclesBelow] at acyclic
  by_cases closes : path.contains name = true
  · simp [closes] at acyclic
  · rw [if_neg closes, List.flatMap_eq_nil_iff] at acyclic
    exact ⟨fun member => closes (Seen.contains_iff.mpr member), acyclic⟩

theorem eq_nil_of_distinctCycles {cycles : List (List String)}
    (none : distinctCycles .empty cycles = []) : cycles = [] := by
  cases cycles with
  | nil => rfl
  | cons cycle rest =>
      have unknown : ¬ (Seen.empty : Seen (List String)).contains (rotation cycle.dropLast) =
          true := by
        rw [Seen.contains_iff]
        exact List.not_mem_nil
      rw [distinctCycles, if_neg unknown] at none
      cases none

namespace Unfolded

mutual
theorem ofSelection_congr {left right : String → Unfolded} :
    ∀ selection : Selection,
      (∀ spread ∈ selection.spreads, left spread.1 = right spread.1) →
      ofSelection left selection = ofSelection right selection
  | .field label below, agree => by
      rw [ofSelection, ofSelection, ofSelections_congr below agree]
  | .inline condition? position below, agree => by
      rw [ofSelection, ofSelection, ofSelections_congr below agree]
  | .spread fragment position, agree => by
      rw [ofSelection, ofSelection]
      exact agree (fragment, position) (by simp [Selection.spreads])

theorem ofSelections_congr {left right : String → Unfolded} :
    ∀ selections : List Selection,
      (∀ spread ∈ spreadsOfAll selections, left spread.1 = right spread.1) →
      ofSelections left selections = ofSelections right selections
  | [], _ => rfl
  | selection :: rest, agree => by
      rw [ofSelections, ofSelections,
        ofSelection_congr selection fun spread member =>
          agree spread (by simp [spreadsOfAll, member]),
        ofSelections_congr rest fun spread member =>
          agree spread (by simp [spreadsOfAll, member])]
end

end Unfolded

namespace Collection

variable {collection : Collection} {name : String}

theorem mem_names_iff :
    name ∈ collection.names ↔ ∃ fragment, collection.get? name = some fragment := by
  rw [names, OrderedMap.keys, ← Assoc.get?_isSome, ← Option.isSome_iff_exists, get?,
    Option.isSome_map]
  rfl

theorem spreadsOf_found {fragment : Query.Fragment} (found : collection.get? name = some fragment) :
    collection.spreadsOf name = (spreadsOfAll fragment.selections).map Prod.fst := by
  obtain ⟨source, filed, rfl⟩ := Option.map_eq_some_iff.mp found
  rw [spreadsOf, spreadNames, OrderedMap.get?_mapValues, filed]
  rfl

theorem spreadsOf_missing (missing : collection.get? name = none) :
    collection.spreadsOf name = [] := by
  rw [get?, Option.map_eq_none_iff] at missing
  rw [spreadsOf, spreadNames, OrderedMap.get?_mapValues, missing]
  rfl

end Collection

namespace Table

theorem acyclic (table : Table) :
    ∀ name ∈ table.collection.names,
      cyclesBelow table.collection.spreadsOf (table.collection.names.length + 1) .empty name =
        [] := by
  have none : table.collection.cycles = [] :=
    List.map_eq_nil_iff.mp (List.append_eq_nil_iff.mp table.sound).1
  rw [Collection.cycles_eq] at none
  exact List.flatMap_eq_nil_iff.mp (eq_nil_of_distinctCycles none)

theorem length_names (table : Table) :
    table.collection.names.length = table.fragments.length := by
  simp [Collection.names, fragments, Collection.fragments, OrderedMap.keys, OrderedMap.values,
    Assoc.keys]

/-- The names above a spread differ from each other, so there are at most as many as there are
fragments; where the descent may still go on, one more fragment changes nothing. -/
theorem unfoldSpread_succ_below (table : Table) :
    ∀ (depth : Nat) (path : Seen String) (name : String),
      path.list.Nodup → path.list ⊆ table.collection.names →
      table.collection.names.length ≤ depth + path.list.length →
      cyclesBelow table.collection.spreadsOf (depth + 1) path name = [] →
      table.unfoldSpread (depth + 1) name = table.unfoldSpread depth name := by
  intro depth
  induction depth with
  | zero =>
      intro path name distinct within enough acyclic
      cases found : table.get? name with
      | none => simp [unfoldSpread, found]
      | some fragment =>
          have fresh := (cyclesBelow_succ _ _ _ _ acyclic).1
          have longer := (List.nodup_cons.mpr ⟨fresh, distinct⟩).length_le_of_subset
            (List.cons_subset.mpr ⟨Collection.mem_names_iff.mpr ⟨fragment, found⟩, within⟩)
          rw [List.length_cons] at longer
          omega
  | succ depth ih =>
      intro path name distinct within enough acyclic
      obtain ⟨fresh, acyclicBelow⟩ := cyclesBelow_succ _ _ _ _ acyclic
      rw [unfoldSpread, unfoldSpread]
      cases found : table.get? name with
      | none => rfl
      | some fragment =>
          have same : Unfolded.ofSelections (table.unfoldSpread (depth + 1))
              fragment.selections =
                Unfolded.ofSelections (table.unfoldSpread depth) fragment.selections := by
            apply Unfolded.ofSelections_congr
            intro spread member
            apply ih (path.push name)
            · exact List.nodup_cons.mpr ⟨fresh, distinct⟩
            · exact List.cons_subset.mpr ⟨Collection.mem_names_iff.mpr ⟨fragment, found⟩, within⟩
            · rw [Seen.list_push, List.length_cons]
              omega
            · apply acyclicBelow
              rw [Collection.spreadsOf_found found]
              exact List.mem_map_of_mem member
          exact congrArg (Unfolded.spread name fragment.condition) same

theorem unfoldSpread_succ (table : Table) (name : String) :
    table.unfoldSpread (table.fragments.length + 1) name =
      table.unfoldSpread table.fragments.length name := by
  cases found : table.get? name with
  | none =>
      rw [unfoldSpread, found]
      cases table.fragments.length with
      | zero => rfl
      | succ depth => rw [unfoldSpread, found]
  | some fragment =>
      rw [← table.length_names]
      apply table.unfoldSpread_succ_below _ .empty name
      · exact List.nodup_nil
      · exact List.nil_subset _
      · exact Nat.le_refl _
      · exact table.acyclic name (Collection.mem_names_iff.mpr ⟨fragment, found⟩)

def unfoldOne (table : Table) : Selection → Unfolded :=
  Unfolded.ofSelection (table.unfoldSpread table.fragments.length)

def unfoldNamed (table : Table) (name : String) : Unfolded :=
  table.unfoldSpread table.fragments.length name

@[simp] theorem unfoldOne_spread (table : Table) (name : String) (position : Syntax.Position) :
    table.unfoldOne (.spread name position) = table.unfoldNamed name := rfl

@[simp] theorem unfold_nil (table : Table) : table.unfold [] = [] := rfl

@[simp] theorem unfold_cons (table : Table) (selection : Selection) (rest : List Selection) :
    table.unfold (selection :: rest) = table.unfoldOne selection :: table.unfold rest := rfl

@[simp] theorem unfoldOne_field (table : Table) (label : FieldLabel) (below : List Selection) :
    table.unfoldOne (.field label below) = .field label (table.unfold below) := rfl

@[simp] theorem unfoldOne_inline (table : Table) (condition? : Option String)
    (position : Syntax.Position) (below : List Selection) :
    table.unfoldOne (.inline condition? position below) =
      .inline condition? (table.unfold below) := rfl

theorem unfold_eq_map (table : Table) (selections : List Selection) :
    table.unfold selections = selections.map table.unfoldOne := by
  induction selections with
  | nil => rfl
  | cons selection rest ih => rw [unfold_cons, ih, List.map_cons]

theorem unfoldNamed_missing {table : Table} {name : String}
    (missing : table.get? name = none) : table.unfoldNamed name = .unknown name := by
  rw [unfoldNamed, ← unfoldSpread_succ, unfoldSpread, missing]

theorem unfoldNamed_found {table : Table} {name : String} {fragment : Query.Fragment}
    (found : table.get? name = some fragment) :
    table.unfoldNamed name =
      .spread name fragment.condition (table.unfold fragment.selections) := by
  rw [unfoldNamed, ← unfoldSpread_succ, unfoldSpread, found]
  rfl

/-! What an unfolded selection holds is smaller than it, also what a spread has brought in. -/

theorem sizeOf_unfold_field (table : Table) (label : FieldLabel) (below : List Selection) :
    sizeOf (table.unfold below) < sizeOf (table.unfoldOne (.field label below)) := by
  rw [unfoldOne_field, Unfolded.field.sizeOf_spec]
  omega

theorem sizeOf_unfold_inline (table : Table) (condition? : Option String)
    (position : Syntax.Position) (below : List Selection) :
    sizeOf (table.unfold below) < sizeOf (table.unfoldOne (.inline condition? position below)) := by
  rw [unfoldOne_inline, Unfolded.inline.sizeOf_spec]
  omega

theorem sizeOf_unfold_spread {table : Table} {name : String} {fragment : Query.Fragment}
    (found : table.get? name = some fragment) (position : Syntax.Position) :
    sizeOf (table.unfold fragment.selections) <
      sizeOf (table.unfoldOne (.spread name position)) := by
  rw [unfoldOne_spread, unfoldNamed_found found, Unfolded.spread.sizeOf_spec]
  omega

theorem sizeOf_unfoldOne_cons (table : Table) (selection : Selection) (rest : List Selection) :
    sizeOf (table.unfoldOne selection) < sizeOf (table.unfold (selection :: rest)) := by
  rw [unfold_cons, List.cons.sizeOf_spec]
  omega

theorem sizeOf_unfold_cons (table : Table) (selection : Selection) (rest : List Selection) :
    sizeOf (table.unfold rest) < sizeOf (table.unfold (selection :: rest)) := by
  rw [unfold_cons, List.cons.sizeOf_spec]
  omega

theorem sizeOf_unfoldOne_lt {table : Table} {selection : Selection} {selections : List Selection}
    (member : selection ∈ selections) :
    sizeOf (table.unfoldOne selection) < sizeOf (table.unfold selections) := by
  induction selections with
  | nil => cases member
  | cons first rest ih =>
      rcases List.mem_cons.mp member with rfl | member
      · exact table.sizeOf_unfoldOne_cons _ _
      · exact Nat.lt_trans (ih member) (table.sizeOf_unfold_cons _ _)

theorem induction (table : Table) {Holds : Selection → Prop}
    (field : ∀ label below, (∀ inner ∈ below, Holds inner) → Holds (.field label below))
    (inline : ∀ condition? position below, (∀ inner ∈ below, Holds inner) →
      Holds (.inline condition? position below))
    (spread : ∀ name position fragment, table.get? name = some fragment →
      (∀ inner ∈ fragment.selections, Holds inner) → Holds (.spread name position))
    (missing : ∀ name position, table.get? name = none → Holds (.spread name position)) :
    ∀ selection, Holds selection
  | .field label below => field label below fun inner _ =>
      induction table field inline spread missing inner
  | .inline condition? position below => inline condition? position below fun inner _ =>
      induction table field inline spread missing inner
  | .spread name position => by
      cases found : table.get? name with
      | none => exact missing name position found
      | some fragment =>
          refine spread name position fragment found fun inner _ => ?_
          exact induction table field inline spread missing inner
  termination_by selection => sizeOf (table.unfoldOne selection)
  decreasing_by
    · exact Nat.lt_trans (sizeOf_unfoldOne_lt ‹_›) (table.sizeOf_unfold_field label below)
    · exact Nat.lt_trans (sizeOf_unfoldOne_lt ‹_›) (table.sizeOf_unfold_inline _ position below)
    · exact Nat.lt_trans (sizeOf_unfoldOne_lt ‹_›) (sizeOf_unfold_spread found position)

end Table
end FieldLookahead.Fragment
