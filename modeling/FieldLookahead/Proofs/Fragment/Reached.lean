import FieldLookahead.Proofs.Fragment.Unfolding

namespace FieldLookahead.Fragment

open Query

/-! The fields that selections reach through inline fragments and spreads, and the type
conditions that are crossed on the way. -/

/-- A field as it is reached, with the conditions crossed on the way, innermost first. -/
structure Occurrence where
  node : FieldNode
  conditions : List String

namespace Table

mutual
/-- What a selection reaches, in document order, after some conditions. A spread leads to the
fragment that it names; fields about the schema itself are left out. -/
inductive Reaches (table : Table) : List String → Selection → List Occurrence → Prop
  | field {crossed : List String} {label : FieldLabel} {below : List Selection}
      (recorded : label.isMeta = false) :
      Reaches table crossed (.field label below) [⟨⟨label, table.unfold below⟩, crossed⟩]
  | metaField {crossed : List String} {label : FieldLabel} {below : List Selection}
      (omitted : label.isMeta = true) : Reaches table crossed (.field label below) []
  | bare {crossed : List String} {position : Syntax.Position} {below : List Selection}
      {occurrences : List Occurrence} (inside : ReachesAll table crossed below occurrences) :
      Reaches table crossed (.inline none position below) occurrences
  | conditioned {crossed : List String} {condition : String} {position : Syntax.Position}
      {below : List Selection} {occurrences : List Occurrence}
      (inside : ReachesAll table (condition :: crossed) below occurrences) :
      Reaches table crossed (.inline (some condition) position below) occurrences
  | spread {crossed : List String} {name : String} {position : Syntax.Position}
      {fragment : Query.Fragment} {occurrences : List Occurrence}
      (found : table.get? name = some fragment)
      (inside : ReachesAll table (fragment.condition :: crossed) fragment.selections
        occurrences) :
      Reaches table crossed (.spread name position) occurrences
  | unknown {crossed : List String} {name : String} {position : Syntax.Position}
      (missing : table.get? name = none) : Reaches table crossed (.spread name position) []

inductive ReachesAll (table : Table) :
    List String → List Selection → List Occurrence → Prop
  | nil {crossed : List String} : ReachesAll table crossed [] []
  | cons {crossed : List String} {selection : Selection} {rest : List Selection}
      {first others : List Occurrence} (here : Reaches table crossed selection first)
      (there : ReachesAll table crossed rest others) :
      ReachesAll table crossed (selection :: rest) (first ++ others)
end

end Table

namespace Unfolded

mutual
def reached (crossed : List String) : Unfolded → List Occurrence
  | field label below => if label.isMeta then [] else [⟨⟨label, below⟩, crossed⟩]
  | inline none below => reachedAll crossed below
  | inline (some condition) below => reachedAll (condition :: crossed) below
  | spread _ condition below => reachedAll (condition :: crossed) below
  | unknown _ => []
  termination_by structural selection => selection

def reachedAll (crossed : List String) : List Unfolded → List Occurrence
  | [] => []
  | selection :: rest => reached crossed selection ++ reachedAll crossed rest
  termination_by structural selections => selections
end

theorem mem_reached_field {crossed : List String} {label : FieldLabel} {below : List Unfolded}
    {occurrence : Occurrence} :
    occurrence ∈ (field label below).reached crossed ↔
      label.isMeta = false ∧ occurrence = ⟨⟨label, below⟩, crossed⟩ := by
  rw [reached]
  cases label.isMeta <;> simp

theorem mem_reachedAll {crossed : List String} {selections : List Unfolded}
    {occurrence : Occurrence} :
    occurrence ∈ reachedAll crossed selections ↔
      ∃ selection ∈ selections, occurrence ∈ selection.reached crossed := by
  induction selections with
  | nil => simp [reachedAll]
  | cons selection rest ih => simp [reachedAll, ih]

theorem reachedAll_append (crossed : List String) (first second : List Unfolded) :
    reachedAll crossed (first ++ second) =
      reachedAll crossed first ++ reachedAll crossed second := by
  induction first with
  | nil => rfl
  | cons selection rest ih => rw [List.cons_append, reachedAll, reachedAll, ih, List.append_assoc]

theorem reachedAll_flatten (crossed : List String) (selectionSets : List (List Unfolded)) :
    reachedAll crossed selectionSets.flatten = selectionSets.flatMap (reachedAll crossed) := by
  induction selectionSets with
  | nil => rfl
  | cons selections rest ih => rw [List.flatten_cons, reachedAll_append, ih, List.flatMap_cons]

mutual
theorem induction {Holds : Unfolded → Prop}
    (field : ∀ label below, (∀ inner ∈ below, Holds inner) → Holds (.field label below))
    (inline : ∀ condition? below, (∀ inner ∈ below, Holds inner) →
      Holds (.inline condition? below))
    (spread : ∀ name condition below, (∀ inner ∈ below, Holds inner) →
      Holds (.spread name condition below))
    (unknown : ∀ name, Holds (.unknown name)) : ∀ selection, Holds selection
  | .field label below => field label below (holdsAll field inline spread unknown below)
  | .inline condition? below =>
      inline condition? below (holdsAll field inline spread unknown below)
  | .spread name condition below =>
      spread name condition below (holdsAll field inline spread unknown below)
  | .unknown name => unknown name

theorem holdsAll {Holds : Unfolded → Prop}
    (field : ∀ label below, (∀ inner ∈ below, Holds inner) → Holds (.field label below))
    (inline : ∀ condition? below, (∀ inner ∈ below, Holds inner) →
      Holds (.inline condition? below))
    (spread : ∀ name condition below, (∀ inner ∈ below, Holds inner) →
      Holds (.spread name condition below))
    (unknown : ∀ name, Holds (.unknown name)) :
    ∀ selections : List Unfolded, ∀ selection ∈ selections, Holds selection
  | [], _, member => nomatch member
  | first :: rest, selection, member => by
      rcases List.mem_cons.mp member with same | member
      · exact same ▸ induction field inline spread unknown first
      · exact holdsAll field inline spread unknown rest selection member
end

mutual
theorem crossed_subset_of_mem_reached {crossed : List String} {occurrence : Occurrence} :
    ∀ selection : Unfolded, occurrence ∈ selection.reached crossed →
      crossed ⊆ occurrence.conditions
  | .field label below, member => by
      obtain ⟨_, rfl⟩ := mem_reached_field.mp member
      exact List.Subset.refl crossed
  | .inline none below, member => by
      rw [reached] at member
      exact crossed_subset_of_mem_reachedAll below member
  | .inline (some condition) below, member => by
      rw [reached] at member
      exact (List.cons_subset.mp (crossed_subset_of_mem_reachedAll below member)).2
  | .spread name condition below, member => by
      rw [reached] at member
      exact (List.cons_subset.mp (crossed_subset_of_mem_reachedAll below member)).2
  | .unknown name, member => by
      rw [reached] at member
      cases member

theorem crossed_subset_of_mem_reachedAll {crossed : List String} {occurrence : Occurrence} :
    ∀ selections : List Unfolded, occurrence ∈ reachedAll crossed selections →
      crossed ⊆ occurrence.conditions
  | [], member => by
      rw [reachedAll] at member
      cases member
  | selection :: rest, member => by
      rw [reachedAll] at member
      rcases List.mem_append.mp member with member | member
      · exact crossed_subset_of_mem_reached selection member
      · exact crossed_subset_of_mem_reachedAll rest member
end

theorem heightOfAll_le_iff {selections : List Unfolded} {most : Nat} :
    heightOfAll selections ≤ most ↔ ∀ selection ∈ selections, selection.height ≤ most := by
  induction selections with
  | nil => simp [heightOfAll]
  | cons selection rest ih => rw [heightOfAll, Nat.max_le, ih, List.forall_mem_cons]

mutual
theorem height_below_lt_of_mem_reached {crossed : List String} {occurrence : Occurrence} :
    ∀ selection : Unfolded, occurrence ∈ selection.reached crossed →
      heightOfAll occurrence.node.below < selection.height
  | .field label below, member => by
      obtain ⟨_, rfl⟩ := mem_reached_field.mp member
      rw [height]
      exact Nat.lt_succ_self _
  | .inline none below, member => by
      rw [reached] at member
      rw [height]
      exact height_below_lt_of_mem_reachedAll below member
  | .inline (some condition) below, member => by
      rw [reached] at member
      rw [height]
      exact height_below_lt_of_mem_reachedAll below member
  | .spread name condition below, member => by
      rw [reached] at member
      rw [height]
      exact height_below_lt_of_mem_reachedAll below member
  | .unknown name, member => by
      rw [reached] at member
      cases member

theorem height_below_lt_of_mem_reachedAll {crossed : List String} {occurrence : Occurrence} :
    ∀ selections : List Unfolded, occurrence ∈ reachedAll crossed selections →
      heightOfAll occurrence.node.below < heightOfAll selections
  | [], member => by
      rw [reachedAll] at member
      cases member
  | selection :: rest, member => by
      rw [reachedAll] at member
      rw [heightOfAll]
      rcases List.mem_append.mp member with member | member
      · exact Nat.lt_of_lt_of_le (height_below_lt_of_mem_reached selection member)
          (Nat.le_max_left _ _)
      · exact Nat.lt_of_lt_of_le (height_below_lt_of_mem_reachedAll rest member)
          (Nat.le_max_right _ _)
end

end Unfolded

def FieldNode.reached (node : FieldNode) : List Occurrence := Unfolded.reachedAll [] node.below

theorem FieldNode.induction {Holds : List FieldNode → Prop}
    (step : ∀ nodes : List FieldNode,
      (∀ node ∈ nodes, ∀ occurrence ∈ node.reached, Holds [occurrence.node]) → Holds nodes)
    (nodes : List FieldNode) : Holds nodes := by
  have single : ∀ (height : Nat) (node : FieldNode),
      Unfolded.heightOfAll node.below < height → Holds [node] := by
    intro height
    induction height with
    | zero => exact fun _ impossible => absurd impossible (Nat.not_lt_zero _)
    | succ height ih =>
        intro node low
        apply step
        intro other member occurrence reached
        rw [List.mem_singleton.mp member] at reached
        have lower := Unfolded.height_below_lt_of_mem_reachedAll _ reached
        exact ih _ (Nat.lt_of_lt_of_le lower (Nat.le_of_lt_succ low))
  exact step nodes fun _ _ occurrence _ => single _ occurrence.node (Nat.lt_succ_self _)

namespace Table

theorem mem_reachedAll_unfold {table : Table} {crossed : List String}
    {selections : List Selection} {occurrence : Occurrence} :
    occurrence ∈ Unfolded.reachedAll crossed (table.unfold selections) ↔
      ∃ selection ∈ selections, occurrence ∈ (table.unfoldOne selection).reached crossed := by
  simp [Unfolded.mem_reachedAll, unfold_eq_map]

mutual
theorem reaches_unfoldOne (table : Table) (crossed : List String) :
    ∀ selection : Selection,
      table.Reaches crossed selection ((table.unfoldOne selection).reached crossed)
  | .field label below => by
      rw [unfoldOne_field, Unfolded.reached]
      cases recorded : label.isMeta with
      | true => exact .metaField recorded
      | false => exact .field recorded
  | .inline none position below => by
      rw [unfoldOne_inline, Unfolded.reached]
      exact .bare (reachesAll_unfold table crossed below)
  | .inline (some condition) position below => by
      rw [unfoldOne_inline, Unfolded.reached]
      exact .conditioned (reachesAll_unfold table (condition :: crossed) below)
  | .spread name position => by
      cases found : table.get? name with
      | none =>
          rw [unfoldOne_spread, unfoldNamed_missing found, Unfolded.reached]
          exact .unknown found
      | some fragment =>
          rw [unfoldOne_spread, unfoldNamed_found found, Unfolded.reached]
          exact .spread found
            (reachesAll_unfold table (fragment.condition :: crossed) fragment.selections)
  termination_by selection => sizeOf (table.unfoldOne selection)
  decreasing_by
    · exact table.sizeOf_unfold_inline _ _ _
    · exact table.sizeOf_unfold_inline _ _ _
    · exact sizeOf_unfold_spread found _

theorem reachesAll_unfold (table : Table) (crossed : List String) :
    ∀ selections : List Selection,
      table.ReachesAll crossed selections
        (Unfolded.reachedAll crossed (table.unfold selections))
  | [] => .nil
  | selection :: rest =>
      .cons (reaches_unfoldOne table crossed selection) (reachesAll_unfold table crossed rest)
  termination_by selections => sizeOf (table.unfold selections)
  decreasing_by
    · exact table.sizeOf_unfoldOne_cons _ _
    · exact table.sizeOf_unfold_cons _ _
end

mutual
theorem Reaches.eq_reached {table : Table} {crossed : List String} {selection : Selection}
    {occurrences : List Occurrence} :
    table.Reaches crossed selection occurrences →
      occurrences = (table.unfoldOne selection).reached crossed
  | .field recorded => by simp [Unfolded.reached, recorded]
  | .metaField omitted => by simp [Unfolded.reached, omitted]
  | .bare inside => by
      rw [unfoldOne_inline, Unfolded.reached]
      exact inside.eq_reachedAll
  | .conditioned inside => by
      rw [unfoldOne_inline, Unfolded.reached]
      exact inside.eq_reachedAll
  | .spread found inside => by
      rw [unfoldOne_spread, unfoldNamed_found found, Unfolded.reached]
      exact inside.eq_reachedAll
  | .unknown missing => by
      rw [unfoldOne_spread, unfoldNamed_missing missing, Unfolded.reached]

theorem ReachesAll.eq_reachedAll {table : Table} {crossed : List String}
    {selections : List Selection} {occurrences : List Occurrence} :
    table.ReachesAll crossed selections occurrences →
      occurrences = Unfolded.reachedAll crossed (table.unfold selections)
  | .nil => rfl
  | .cons here there => by
      rw [unfold_cons, Unfolded.reachedAll, ← here.eq_reached, ← there.eq_reachedAll]
end

theorem reachesAll_iff {table : Table} {crossed : List String} {selections : List Selection}
    {occurrences : List Occurrence} :
    table.ReachesAll crossed selections occurrences ↔
      occurrences = Unfolded.reachedAll crossed (table.unfold selections) :=
  ⟨ReachesAll.eq_reachedAll, fun same => same ▸ reachesAll_unfold table crossed selections⟩

def Unfolds (table : Table) (unfolded : List Unfolded) : Prop :=
  ∃ selections, table.unfold selections = unfolded

theorem unfold_append (table : Table) (first second : List Selection) :
    table.unfold (first ++ second) = table.unfold first ++ table.unfold second := by
  rw [unfold_eq_map, unfold_eq_map, unfold_eq_map, List.map_append]

theorem flatten_map_unfold (table : Table) (selectionSets : List (List Selection)) :
    (selectionSets.map table.unfold).flatten = table.unfold selectionSets.flatten := by
  induction selectionSets with
  | nil => rfl
  | cons selections rest ih =>
      rw [List.map_cons, List.flatten_cons, List.flatten_cons, unfold_append, ih]

theorem Unfolds.flatten {table : Table} {selectionSets : List (List Unfolded)}
    (unfolds : ∀ selections ∈ selectionSets, table.Unfolds selections) :
    table.Unfolds selectionSets.flatten := by
  induction selectionSets with
  | nil => exact ⟨[], rfl⟩
  | cons selections rest ih =>
      obtain ⟨⟨first, rfl⟩, others⟩ := List.forall_mem_cons.mp unfolds
      obtain ⟨second, same⟩ := ih others
      exact ⟨first ++ second, by rw [unfold_append, same, List.flatten_cons]⟩

mutual
theorem Reaches.forall_node {table : Table} (Holds : FieldNode → Prop)
    (each : ∀ label below, label.isMeta = false → Holds ⟨label, table.unfold below⟩)
    {crossed : List String} {selection : Selection} {occurrences : List Occurrence} :
    table.Reaches crossed selection occurrences →
      ∀ occurrence ∈ occurrences, Holds occurrence.node
  | .field recorded, occurrence, member => by
      cases List.mem_singleton.mp member
      exact each _ _ recorded
  | .metaField _, _, member => nomatch member
  | .bare inside, occurrence, member => inside.forall_node Holds each occurrence member
  | .conditioned inside, occurrence, member => inside.forall_node Holds each occurrence member
  | .spread _ inside, occurrence, member => inside.forall_node Holds each occurrence member
  | .unknown _, _, member => nomatch member

theorem ReachesAll.forall_node {table : Table} (Holds : FieldNode → Prop)
    (each : ∀ label below, label.isMeta = false → Holds ⟨label, table.unfold below⟩)
    {crossed : List String} {selections : List Selection} {occurrences : List Occurrence} :
    table.ReachesAll crossed selections occurrences →
      ∀ occurrence ∈ occurrences, Holds occurrence.node
  | .nil, _, member => nomatch member
  | .cons here there, occurrence, member => by
      rcases List.mem_append.mp member with member | member
      · exact here.forall_node Holds each occurrence member
      · exact there.forall_node Holds each occurrence member
end

theorem ReachesAll.recorded {table : Table} {crossed : List String}
    {selections : List Selection} {occurrences : List Occurrence}
    (reaches : table.ReachesAll crossed selections occurrences) :
    ∀ occurrence ∈ occurrences, occurrence.node.label.isMeta = false :=
  reaches.forall_node (·.label.isMeta = false) fun _ _ recorded => recorded

theorem Unfolds.reached {table : Table} {unfolded : List Unfolded}
    (unfolds : table.Unfolds unfolded) {crossed : List String} {occurrence : Occurrence}
    (reached : occurrence ∈ Unfolded.reachedAll crossed unfolded) :
    table.Unfolds occurrence.node.below := by
  obtain ⟨selections, rfl⟩ := unfolds
  have reaches := table.reachesAll_unfold crossed selections
  exact reaches.forall_node (table.Unfolds ·.below) (fun _ below _ => ⟨below, rfl⟩) occurrence
    reached

end Table
end FieldLookahead.Fragment
