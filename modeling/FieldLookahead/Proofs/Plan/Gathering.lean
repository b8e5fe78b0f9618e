import FieldLookahead.Plan.Groups
import FieldLookahead.Proofs.Fragment.Reached
import FieldLookahead.Proofs.Outcome

namespace FieldLookahead.Plan

open Fragment (Unfolded FieldNode Occurrence)

/-! The groups of an object type hold fields that are reached through conditions all of which the
object type meets. -/

/-- An object type meets every condition crossed on the way to a field. -/
def AppliesTo (schema : Schema) (object : String) (occurrence : Occurrence) : Prop :=
  ∀ condition ∈ occurrence.conditions,
    ∃ types, schema.possibleTypes condition = .ok types ∧ object ∈ types

theorem meets_eq_ok {schema : Schema} {object condition : String} {answer : Bool} :
    meets schema object condition = .ok answer ↔
      ∃ types, schema.possibleTypes condition = .ok types ∧ types.contains object = answer := by
  rw [meets, mapError_eq_ok, map_eq_ok]

theorem whenMet_eq_ok {α : Type} {schema : Schema} {object condition : String}
    {next : Except Lookahead.Fault α} {other result : α} :
    (do if ← meets schema object condition then next else pure other) = .ok result ↔
      ∃ types, schema.possibleTypes condition = .ok types ∧
        (object ∈ types ∧ next = .ok result ∨ object ∉ types ∧ other = result) := by
  rw [bind_eq_ok]
  constructor
  · rintro ⟨answer, asked, run⟩
    obtain ⟨types, possible, rfl⟩ := meets_eq_ok.mp asked
    refine ⟨types, possible, ?_⟩
    by_cases member : object ∈ types
    · rw [if_pos (List.contains_iff_mem.mpr member)] at run
      exact .inl ⟨member, run⟩
    · rw [if_neg (mt List.contains_iff_mem.mp member)] at run
      exact .inr ⟨member, Except.ok.inj run⟩
  · rintro ⟨types, possible, ⟨member, run⟩ | ⟨absent, rfl⟩⟩
    · refine ⟨true, meets_eq_ok.mpr ⟨types, possible, List.contains_iff_mem.mpr member⟩, ?_⟩
      exact run
    · refine ⟨false, meets_eq_ok.mpr ⟨types, possible, ?_⟩, rfl⟩
      exact Bool.eq_false_iff.mpr (mt List.contains_iff_mem.mp absent)

/-- Each group holds nodes of its own key, which come from reached fields that apply. -/
structure GatheredFrom (schema : Schema) (object : String) (occurrences : List Occurrence)
    (groups : Groups) : Prop where
  distinct : (Assoc.keys groups).Nodup
  filled : ∀ entry ∈ groups, entry.2 ≠ []
  keyed : ∀ entry ∈ groups, ∀ node ∈ entry.2, node.label.key = entry.1
  origin : ∀ entry ∈ groups, ∀ node ∈ entry.2,
    ∃ occurrence ∈ occurrences, occurrence.node = node ∧ AppliesTo schema object occurrence

namespace GatheredFrom

variable {schema : Schema} {object : String} {occurrences : List Occurrence}

theorem empty (schema : Schema) (object : String) : GatheredFrom schema object [] [] where
  distinct := List.nodup_nil
  filled _ member := nomatch member
  keyed _ member := nomatch member
  origin _ member := nomatch member

theorem mono {groups : Groups} {more : List Occurrence}
    (gathered : GatheredFrom schema object occurrences groups)
    (within : occurrences ⊆ more) : GatheredFrom schema object more groups where
  distinct := gathered.distinct
  filled := gathered.filled
  keyed := gathered.keyed
  origin entry member node inside := by
    obtain ⟨occurrence, reached, same, applies⟩ := gathered.origin entry member node inside
    exact ⟨occurrence, within reached, same, applies⟩

theorem mem_addNode {gathering : Gathering} {node : FieldNode} {entry : String × List FieldNode}
    (member : entry ∈ (gathering.addNode node).groups) :
    entry ∈ gathering.groups ∨
      entry.1 = node.label.key ∧ entry.2 ≠ [] ∧
        ∀ other ∈ entry.2, other = node ∨
          ∃ old, (node.label.key, old) ∈ gathering.groups ∧ other ∈ old := by
  rcases Assoc.mem_insert member with rfl | member
  · refine .inr ⟨rfl, by simp, ?_⟩
    intro other inside
    rcases List.mem_append.mp inside with inside | inside
    · cases present : Assoc.get? node.label.key gathering.groups with
      | none =>
          rw [present] at inside
          cases inside
      | some old =>
          rw [present] at inside
          exact .inr ⟨old, Assoc.mem_of_get? present, inside⟩
    · exact .inl (List.mem_singleton.mp inside)
  · exact .inl member

theorem addNode {gathering : Gathering} {occurrence : Occurrence}
    (gathered : GatheredFrom schema object occurrences gathering.groups)
    (applies : AppliesTo schema object occurrence) :
    GatheredFrom schema object (occurrences ++ [occurrence])
      (gathering.addNode occurrence.node).groups where
  distinct := Assoc.nodup_keys_insert gathered.distinct
  filled entry member := by
    rcases mem_addNode member with member | ⟨_, filled, _⟩
    · exact gathered.filled entry member
    · exact filled
  keyed entry member node inside := by
    rcases mem_addNode member with member | ⟨same, _, nodes⟩
    · exact gathered.keyed entry member node inside
    · rcases nodes node inside with rfl | ⟨old, present, inside⟩
      · exact same.symm
      · exact (gathered.keyed _ present node inside).trans same.symm
  origin entry member node inside := by
    have before : ∀ other ∈ gathering.groups, ∀ inner ∈ other.2,
        ∃ found ∈ occurrences ++ [occurrence],
          found.node = inner ∧ AppliesTo schema object found :=
      (gathered.mono (List.subset_append_left _ _)).origin
    rcases mem_addNode member with member | ⟨_, _, nodes⟩
    · exact before entry member node inside
    · rcases nodes node inside with rfl | ⟨old, present, inside⟩
      · exact ⟨occurrence, by simp, rfl, applies⟩
      · exact before _ present node inside

end GatheredFrom

mutual
theorem gatherSelection_gatheredFrom (schema : Schema) (object : String) :
    ∀ (selection : Unfolded) (crossed : List String) (occurrences : List Occurrence)
      (before after : Gathering),
      (∀ condition ∈ crossed,
        ∃ types, schema.possibleTypes condition = .ok types ∧ object ∈ types) →
      GatheredFrom schema object occurrences before.groups →
      gatherSelection schema object selection before = .ok after →
      GatheredFrom schema object (occurrences ++ selection.reached crossed) after.groups
  | .field label below, crossed, occurrences, before, after, met, gathered, run => by
      rw [gatherSelection] at run
      rw [Unfolded.reached]
      cases run
      cases label.isMeta with
      | true => exact gathered.mono (List.subset_append_left _ _)
      | false =>
          have applies : AppliesTo schema object ⟨⟨label, below⟩, crossed⟩ := met
          exact gathered.addNode applies
  | .inline none below, crossed, occurrences, before, after, met, gathered, run => by
      rw [gatherSelection] at run
      rw [Unfolded.reached]
      exact gatherSelections_gatheredFrom schema object below crossed occurrences before after
        met gathered run
  | .inline (some condition) below, crossed, occurrences, before, after, met, gathered, run => by
      rw [gatherSelection] at run
      rw [Unfolded.reached]
      obtain ⟨types, possible, ⟨member, run⟩ | ⟨_, rfl⟩⟩ := whenMet_eq_ok.mp run
      · exact gatherSelections_gatheredFrom schema object below (condition :: crossed)
          occurrences before after
          (List.forall_mem_cons.mpr ⟨⟨types, possible, member⟩, met⟩) gathered run
      · exact gathered.mono (List.subset_append_left _ _)
  | .spread name condition below, crossed, occurrences, before, after, met, gathered, run => by
      rw [gatherSelection] at run
      rw [Unfolded.reached]
      split at run
      · cases run
        exact gathered.mono (List.subset_append_left _ _)
      · obtain ⟨types, possible, ⟨member, run⟩ | ⟨_, rfl⟩⟩ := whenMet_eq_ok.mp run
        · exact gatherSelections_gatheredFrom schema object below (condition :: crossed)
            occurrences (before.enter name) after
            (List.forall_mem_cons.mpr ⟨⟨types, possible, member⟩, met⟩) gathered run
        · exact gathered.mono (List.subset_append_left _ _)
  | .unknown name, crossed, occurrences, before, after, met, gathered, run => by
      rw [gatherSelection] at run
      split at run
      · cases run
        exact gathered.mono (List.subset_append_left _ _)
      · cases run

theorem gatherSelections_gatheredFrom (schema : Schema) (object : String) :
    ∀ (selections : List Unfolded) (crossed : List String) (occurrences : List Occurrence)
      (before after : Gathering),
      (∀ condition ∈ crossed,
        ∃ types, schema.possibleTypes condition = .ok types ∧ object ∈ types) →
      GatheredFrom schema object occurrences before.groups →
      gatherSelections schema object selections before = .ok after →
      GatheredFrom schema object (occurrences ++ Unfolded.reachedAll crossed selections)
        after.groups
  | [], crossed, occurrences, before, after, met, gathered, run => by
      cases run
      exact gathered.mono (List.subset_append_left _ _)
  | selection :: rest, crossed, occurrences, before, after, met, gathered, run => by
      rw [gatherSelections] at run
      obtain ⟨middle, first, others⟩ := bind_eq_ok.mp run
      rw [Unfolded.reachedAll, ← List.append_assoc]
      exact gatherSelections_gatheredFrom schema object rest crossed _ middle after met
        (gatherSelection_gatheredFrom schema object selection crossed occurrences before middle
          met gathered first) others
end

theorem AppliesTo.meets_eq_ok {schema : Schema} {object condition : String} {crossed : List String}
    {selections : List Unfolded} {occurrence : Occurrence}
    (applies : AppliesTo schema object occurrence)
    (reached : occurrence ∈ Unfolded.reachedAll (condition :: crossed) selections) :
    meets schema object condition = .ok true := by
  have inside := (List.cons_subset.mp
    (Unfolded.crossed_subset_of_mem_reachedAll selections reached)).1
  obtain ⟨types, possible, member⟩ := applies condition inside
  exact Plan.meets_eq_ok.mpr ⟨types, possible, List.contains_iff_mem.mpr member⟩

theorem gatherSelections_append (schema : Schema) (object : String)
    (first second : List Unfolded) (gathering : Gathering) :
    gatherSelections schema object (first ++ second) gathering =
      gatherSelections schema object first gathering >>=
        gatherSelections schema object second := by
  induction first generalizing gathering with
  | nil => rfl
  | cons selection rest ih =>
      rw [List.cons_append, gatherSelections, gatherSelections, bind_assoc, funext ih]

theorem groups_eq_map (schema : Schema) (object : String) (selectionSets : List (List Unfolded)) :
    groups schema object selectionSets =
      (gatherSelections schema object selectionSets.flatten .empty).map (·.groups) := by
  have flat : ∀ start : Gathering, selectionSets.foldlM
      (fun gathering selections => gatherSelections schema object selections gathering) start =
        gatherSelections schema object selectionSets.flatten start := by
    induction selectionSets with
    | nil => exact fun _ => rfl
    | cons selections rest ih =>
        intro start
        rw [List.foldlM_cons, List.flatten_cons, gatherSelections_append, funext ih]
  rw [groups, flat]
  rfl

theorem groups_eq_ok {schema : Schema} {object : String}
    {selectionSets : List (List Unfolded)} {found : Groups} :
    groups schema object selectionSets = .ok found ↔
      ∃ finish, gatherSelections schema object selectionSets.flatten .empty = .ok finish ∧
        finish.groups = found := by
  rw [groups_eq_map, map_eq_ok]

theorem groups_gatheredFrom {schema : Schema} {object : String}
    {selectionSets : List (List Unfolded)} {found : Groups}
    (gathered : groups schema object selectionSets = .ok found) :
    GatheredFrom schema object (selectionSets.flatMap (Unfolded.reachedAll [])) found := by
  obtain ⟨finish, run, rfl⟩ := groups_eq_ok.mp gathered
  have all := gatherSelections_gatheredFrom schema object _ [] [] _ finish (by simp)
    (.empty schema object) run
  rwa [List.nil_append, Unfolded.reachedAll_flatten] at all

end FieldLookahead.Plan
