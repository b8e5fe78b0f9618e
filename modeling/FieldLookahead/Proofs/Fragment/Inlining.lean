import FieldLookahead.Proofs.Fragment.Reached

namespace FieldLookahead.Fragment

open Query

/-! Documents without fragments: every spread has become an inline fragment that carries the
condition and the selections of the fragment that it names. -/

/-- A selection with all its spreads replaced by inline fragments, at any depth. -/
inductive Table.Inlines (table : Table) : Selection → Selection → Prop
  | field {label : FieldLabel} {below inlined : List Selection}
      (inside : List.Forall₂ (Inlines table) below inlined) :
      Inlines table (.field label below) (.field label inlined)
  | inline {condition? : Option String} {position : Syntax.Position}
      {below inlined : List Selection} (inside : List.Forall₂ (Inlines table) below inlined) :
      Inlines table (.inline condition? position below) (.inline condition? position inlined)
  | spread {name : String} {position anywhere : Syntax.Position} {fragment : Query.Fragment}
      {inlined : List Selection} (found : table.get? name = some fragment)
      (inside : List.Forall₂ (Inlines table) fragment.selections inlined) :
      Inlines table (.spread name position)
        (.inline (some fragment.condition) anywhere inlined)

namespace Unfolded

mutual
def inlined : Unfolded → Unfolded
  | field label below => field label (inlinedAll below)
  | inline condition? below => inline condition? (inlinedAll below)
  | spread _ condition below => inline (some condition) (inlinedAll below)
  | unknown name => unknown name
  termination_by structural selection => selection

def inlinedAll : List Unfolded → List Unfolded
  | [] => []
  | selection :: rest => inlined selection :: inlinedAll rest
  termination_by structural selections => selections
end

theorem inlinedAll_eq_map (selections : List Unfolded) :
    inlinedAll selections = selections.map inlined := by
  induction selections with
  | nil => rfl
  | cons selection rest ih => rw [inlinedAll, ih, List.map_cons]

mutual
theorem height_inlined : ∀ selection : Unfolded, selection.inlined.height = selection.height
  | .field label below => by rw [inlined, height, height, heightOfAll_inlinedAll below]
  | .inline condition? below => by rw [inlined, height, height, heightOfAll_inlinedAll below]
  | .spread name condition below => by
      rw [inlined, height, height, heightOfAll_inlinedAll below]
  | .unknown name => by rw [inlined]

theorem heightOfAll_inlinedAll :
    ∀ selections : List Unfolded, heightOfAll (inlinedAll selections) = heightOfAll selections
  | [] => rfl
  | selection :: rest => by
      rw [inlinedAll, heightOfAll, heightOfAll, height_inlined selection,
        heightOfAll_inlinedAll rest]
end

end Unfolded

namespace Table

variable {table : Table}

theorem isSome_of_mem_spreads {name : String} {fragment : Query.Fragment}
    (found : table.get? name = some fragment) :
    ∀ spread ∈ spreadsOfAll fragment.selections, (table.get? spread.1).isSome = true := by
  rintro ⟨other, position⟩ member
  have none : table.collection.undefinedSpreads = [] :=
    (List.append_eq_nil_iff.mp table.sound).2
  obtain ⟨source, filed, rfl⟩ := Option.map_eq_some_iff.mp found
  have inFragments : source.fragment ∈ table.collection.fragments := by
    have entry := OrderedMap.get?_eq_some.mp filed
    exact List.mem_map_of_mem (List.mem_map_of_mem (f := Prod.snd) entry)
  have defined := List.filterMap_eq_nil_iff.mp
    (List.flatMap_eq_nil_iff.mp none _ inFragments) (other, position) member
  simp only at defined
  split at defined
  · next present =>
    rw [Table.get?, Collection.get?, Option.isSome_map]
    exact present
  · cases defined

theorem mem_spreadsOfAll {selections : List Selection} {spread : String × Syntax.Position} :
    spread ∈ spreadsOfAll selections ↔ ∃ selection ∈ selections, spread ∈ selection.spreads := by
  induction selections with
  | nil => simp [spreadsOfAll]
  | cons selection rest ih => simp [spreadsOfAll, ih]

theorem exists_inlinesAll {selections : List Selection}
    (each : ∀ selection ∈ selections, ∃ inlined, table.Inlines selection inlined) :
    ∃ inlined, List.Forall₂ table.Inlines selections inlined := by
  induction selections with
  | nil => exact ⟨[], .nil⟩
  | cons selection rest ih =>
      obtain ⟨⟨inlined, here⟩, others⟩ := List.forall_mem_cons.mp each
      obtain ⟨more, there⟩ := ih others
      exact ⟨inlined :: more, .cons here there⟩

theorem exists_inlines (selection : Selection)
    (defined : ∀ spread ∈ selection.spreads, (table.get? spread.1).isSome = true) :
    ∃ inlined, table.Inlines selection inlined := by
  have all : ∀ {selections : List Selection},
      (∀ inner ∈ selections,
        (∀ spread ∈ inner.spreads, (table.get? spread.1).isSome = true) →
          ∃ inlined, table.Inlines inner inlined) →
      (∀ spread ∈ spreadsOfAll selections, (table.get? spread.1).isSome = true) →
      ∃ inlined, List.Forall₂ table.Inlines selections inlined := by
    intro selections each defined
    refine exists_inlinesAll fun inner member => each inner member fun spread inside => ?_
    exact defined spread (mem_spreadsOfAll.mpr ⟨inner, member, inside⟩)
  induction selection using table.induction with
  | field label below ih =>
      obtain ⟨inlined, inside⟩ := all ih defined
      exact ⟨_, .field inside⟩
  | inline condition? position below ih =>
      obtain ⟨inlined, inside⟩ := all ih defined
      exact ⟨_, .inline inside⟩
  | spread name position fragment found ih =>
      obtain ⟨inlined, inside⟩ := all ih (isSome_of_mem_spreads found)
      exact ⟨.inline _ position inlined, .spread found inside⟩
  | missing name position missing =>
      have present := defined (name, position) (by simp [Selection.spreads])
      rw [missing] at present
      cases present

theorem unfold_inlines_of {other : Table} {selections inlined : List Selection}
    (inlines : List.Forall₂ table.Inlines selections inlined)
    (each : ∀ selection ∈ selections, ∀ {inlined : Selection}, table.Inlines selection inlined →
      other.unfoldOne inlined = (table.unfoldOne selection).inlined) :
    other.unfold inlined = Unfolded.inlinedAll (table.unfold selections) := by
  induction inlines with
  | nil => rfl
  | cons here _ ih =>
      obtain ⟨first, others⟩ := List.forall_mem_cons.mp each
      rw [unfold_cons, unfold_cons, Unfolded.inlinedAll, first here, ih others]

theorem Inlines.unfoldOne_eq (other : Table) {selection inlined : Selection}
    (inlines : table.Inlines selection inlined) :
    other.unfoldOne inlined = (table.unfoldOne selection).inlined := by
  induction selection using table.induction generalizing inlined with
  | field label below ih =>
      cases inlines with
      | field inside =>
          rw [unfoldOne_field, unfoldOne_field, Unfolded.inlined, unfold_inlines_of inside ih]
  | inline condition? position below ih =>
      cases inlines with
      | inline inside =>
          rw [unfoldOne_inline, unfoldOne_inline, Unfolded.inlined, unfold_inlines_of inside ih]
  | spread name position fragment found ih =>
      cases inlines with
      | spread again inside =>
          rw [found] at again
          cases again
          rw [unfoldOne_inline, unfoldOne_spread, unfoldNamed_found found, Unfolded.inlined,
            unfold_inlines_of inside ih]
  | missing name position missing =>
      cases inlines with
      | spread found _ =>
          rw [missing] at found
          cases found

theorem unfold_inlines (other : Table) {selections inlined : List Selection}
    (inlines : List.Forall₂ table.Inlines selections inlined) :
    other.unfold inlined = Unfolded.inlinedAll (table.unfold selections) :=
  unfold_inlines_of inlines fun _ _ _ here => here.unfoldOne_eq other

end Table
end FieldLookahead.Fragment
