import FieldLookahead.Proofs.Lookahead.Attribution
import FieldLookahead.Proofs.Plan.Traversal
import FieldLookahead.Proofs.Query.Places
import FieldLookahead.Proofs.Schema.PossibleTypes
import Mathlib.Data.List.Induction

namespace FieldLookahead.Plan

open Fragment (Table FieldNode)
open Query (Selection StandsAt)

/-! The groups of an object type are the fields that it meets when every spread is followed each
time: the keys in the order in which they are first met, and under each key its fields, each place
of the document once. -/

section Met

variable (schema : Schema) (table : Table) (object : String)

mutual
/-- What an object type meets in a selection, where conditions lead on that cover the type. -/
inductive Meets : Site → Selection → List Encounter → Prop
  | field {site : Site} {label : Query.FieldLabel} {below : List Selection}
      (recorded : label.isMeta = false) :
      Meets site (.field label below) [⟨site, label, table.unfold below⟩]
  | metaField {site : Site} {label : Query.FieldLabel} {below : List Selection}
      (omitted : label.isMeta = true) : Meets site (.field label below) []
  | bare {site : Site} {position : Syntax.Position} {below : List Selection}
      {encounters : List Encounter} (inside : MeetsAll site 0 below encounters) :
      Meets site (.inline none position below) encounters
  | covered {site : Site} {condition : String} {position : Syntax.Position}
      {below : List Selection} {encounters : List Encounter}
      (covers : schema.Covers object condition) (inside : MeetsAll site 0 below encounters) :
      Meets site (.inline (some condition) position below) encounters
  | uncovered {site : Site} {condition : String} {position : Syntax.Position}
      {below : List Selection} (unmet : ¬ schema.Covers object condition) :
      Meets site (.inline (some condition) position below) []
  | spread {site : Site} {name : String} {position : Syntax.Position}
      {fragment : Query.Fragment} {encounters : List Encounter}
      (found : table.get? name = some fragment)
      (covers : schema.Covers object fragment.condition)
      (inside : MeetsAll ⟨some name, []⟩ 0 fragment.selections encounters) :
      Meets site (.spread name position) encounters
  | uncoveredSpread {site : Site} {name : String} {position : Syntax.Position}
      {fragment : Query.Fragment} (found : table.get? name = some fragment)
      (unmet : ¬ schema.Covers object fragment.condition) :
      Meets site (.spread name position) []

inductive MeetsAll : Site → Nat → List Selection → List Encounter → Prop
  | nil {around : Site} {index : Nat} : MeetsAll around index [] []
  | cons {around : Site} {index : Nat} {selection : Selection} {rest : List Selection}
      {first others : List Encounter} (here : Meets (around.item index) selection first)
      (there : MeetsAll around (index + 1) rest others) :
      MeetsAll around index (selection :: rest) (first ++ others)
end

end Met

section Encountered

variable {schema : Schema} {table : Table} {object : String} {heading : Schema.Heading}
  {shape : Schema.Shape}

theorem whenCovered (known : schema.get? object = some (.object heading shape))
    {condition : String} {found : Except Lookahead.Fault (List Encounter)}
    {encounters : List Encounter}
    (run : (do if ← meets schema object condition then found else pure []) = .ok encounters) :
    schema.Covers object condition ∧ found = .ok encounters ∨
      ¬ schema.Covers object condition ∧ [] = encounters := by
  obtain ⟨types, possible, asked⟩ := whenMet_eq_ok.mp run
  rwa [← Schema.mem_possibleTypes_iff_covers known possible]

mutual
theorem meets_of_encountered (known : schema.get? object = some (.object heading shape))
    (site : Site) {encounters : List Encounter} :
    ∀ selection : Selection,
      encountered schema object site (table.unfoldOne selection) = .ok encounters →
      Meets schema table object site selection encounters
  | .field label below, run => by
      rw [Table.unfoldOne_field, encountered] at run
      cases recorded : label.isMeta with
      | true =>
          rw [recorded] at run
          cases run
          exact .metaField recorded
      | false =>
          rw [recorded] at run
          cases run
          exact .field recorded
  | .inline none position below, run => by
      rw [Table.unfoldOne_inline, encountered] at run
      exact .bare (meetsAll_of_encounteredAll known site 0 below run)
  | .inline (some condition) position below, run => by
      rw [Table.unfoldOne_inline, encountered] at run
      obtain ⟨covers, run⟩ | ⟨unmet, rfl⟩ := whenCovered known run
      · exact .covered covers (meetsAll_of_encounteredAll known site 0 below run)
      · exact .uncovered unmet
  | .spread name position, run => by
      rw [Table.unfoldOne_spread] at run
      cases found : table.get? name with
      | none =>
          rw [Table.unfoldNamed_missing found, encountered] at run
          cases run
      | some fragment =>
          rw [Table.unfoldNamed_found found, encountered] at run
          obtain ⟨covers, run⟩ | ⟨unmet, rfl⟩ := whenCovered known run
          · exact .spread found covers
              (meetsAll_of_encounteredAll known _ 0 fragment.selections run)
          · exact .uncoveredSpread found unmet
  termination_by selection => sizeOf (table.unfoldOne selection)
  decreasing_by
    · exact table.sizeOf_unfold_inline _ _ _
    · exact table.sizeOf_unfold_inline _ _ _
    · exact Table.sizeOf_unfold_spread found _

theorem meetsAll_of_encounteredAll (known : schema.get? object = some (.object heading shape))
    (around : Site) (index : Nat) {encounters : List Encounter} :
    ∀ selections : List Selection,
      encounteredAll schema object around index (table.unfold selections) = .ok encounters →
      MeetsAll schema table object around index selections encounters
  | [], run => by
      cases run
      exact .nil
  | selection :: rest, run => by
      rw [Table.unfold_cons, encounteredAll] at run
      obtain ⟨first, here, run⟩ := bind_eq_ok.mp run
      obtain ⟨others, there, same⟩ := bind_eq_ok.mp run
      cases same
      exact .cons (meets_of_encountered known (around.item index) selection here)
        (meetsAll_of_encounteredAll known around (index + 1) rest there)
  termination_by selections => sizeOf (table.unfold selections)
  decreasing_by
    · exact table.sizeOf_unfoldOne_cons _ _
    · exact table.sizeOf_unfold_cons _ _
end

end Encountered

/-- A selection stands at a place, in a fragment or else among the selections given. -/
def Site.Holds (table : Table) (given : List Selection) (site : Site)
    (selection : Selection) : Prop :=
  match site.fragment? with
  | none => StandsAt selection given site.path
  | some name => ∃ fragment, table.get? name = some fragment ∧
      StandsAt selection fragment.selections site.path

def Encounter.Stands (table : Table) (given : List Selection) (encounter : Encounter) : Prop :=
  ∃ below, encounter.node.below = table.unfold below ∧
    encounter.site.Holds table given (.field encounter.node.label below)

section Standing

variable {schema : Schema} {table : Table} {object : String} {given : List Selection}

theorem Site.Holds.item {site : Site} {outer inner : Selection} {index : Nat}
    (holds : site.Holds table given outer) (member : outer.enclosed[index]? = some inner) :
    (site.item index).Holds table given inner := by
  obtain ⟨fragment?, path⟩ := site
  cases fragment? with
  | none => exact StandsAt.enclosed holds member
  | some name =>
      obtain ⟨fragment, found, stands⟩ := holds
      exact ⟨fragment, found, stands.enclosed member⟩

theorem Site.Holds.items {site : Site} {outer : Selection}
    (holds : site.Holds table given outer) (offset : Nat) (inner : Selection)
    (member : outer.enclosed[offset]? = some inner) :
    (site.item (0 + offset)).Holds table given inner :=
  holds.item (by rwa [Nat.zero_add])

mutual
theorem Meets.stands {site : Site} {selection : Selection} {encounters : List Encounter} :
    Meets schema table object site selection encounters →
      site.Holds table given selection →
      ∀ encounter ∈ encounters, encounter.Stands table given
  | .field _, holds, encounter, member => by
      cases List.mem_singleton.mp member
      exact ⟨_, rfl, holds⟩
  | .metaField _, _, _, member => nomatch member
  | .bare inside, holds, encounter, member => inside.stands holds.items encounter member
  | .covered _ inside, holds, encounter, member => inside.stands holds.items encounter member
  | .uncovered _, _, _, member => nomatch member
  | .spread found _ inside, _, encounter, member => by
      refine inside.stands (fun offset inner item => ⟨_, found, ?_⟩) encounter member
      rw [Nat.zero_add]
      exact .here item
  | .uncoveredSpread _ _, _, _, member => nomatch member

theorem MeetsAll.stands {around : Site} {index : Nat} {selections : List Selection}
    {encounters : List Encounter} :
    MeetsAll schema table object around index selections encounters →
      (∀ offset inner, selections[offset]? = some inner →
        (around.item (index + offset)).Holds table given inner) →
      ∀ encounter ∈ encounters, encounter.Stands table given
  | .nil, _, _, member => nomatch member
  | .cons here there, holds, encounter, member => by
      rcases List.mem_append.mp member with member | member
      · exact here.stands (holds 0 _ rfl) encounter member
      · refine there.stands (fun offset inner item => ?_) encounter member
        rw [Nat.add_assoc, Nat.add_comm 1]
        exact holds (offset + 1) inner item
end

end Standing

/-! What groups hold to which nodes have been added one by one. -/

theorem getD_grouped (key : String) (groups : Groups) (nodes : List FieldNode) :
    (Assoc.get? key (grouped groups nodes)).getD [] =
      (Assoc.get? key groups).getD [] ++ nodes.filter (·.label.key = key) := by
  induction nodes generalizing groups with
  | nil => simp [grouped]
  | cons node rest ih =>
      rw [grouped_cons, ih]
      by_cases same : node.label.key = key
      · rw [same, Assoc.get?_insert_self, List.filter_cons_of_pos (by simpa using same),
          Option.getD_some, List.append_assoc, List.singleton_append]
      · rw [Assoc.get?_insert_of_ne same, List.filter_cons_of_neg (by simpa using same)]

theorem keys_grouped (nodes : List FieldNode) :
    Assoc.keys (grouped [] nodes) = firstBy id (nodes.map (·.label.key)) := by
  induction nodes using List.reverseRecOn with
  | nil => rfl
  | append_singleton nodes last ih =>
      have members : last.label.key ∈ Assoc.keys (grouped [] nodes) ↔
          id last.label.key ∈ (nodes.map (·.label.key)).map id := by
        rw [mem_keys_grouped]
        simp [Assoc.keys]
      rw [grouped_append, List.map_append, List.map_singleton, firstBy_concat, ← ih]
      simp only [← members]
      exact Assoc.keys_insert _ _ _

theorem nodes_of_mem_grouped {nodes : List FieldNode} {entry : String × List FieldNode}
    (distinct : (Assoc.keys (grouped [] nodes)).Nodup) (member : entry ∈ grouped [] nodes) :
    entry.2 = nodes.filter (·.label.key = entry.1) := by
  have listed := getD_grouped entry.1 [] nodes
  rw [Assoc.get?_of_mem distinct member] at listed
  exact listed

/-- The groups of an object type are what it meets, by key, with each place once. -/
theorem groups_eq_encounters {schema : Schema} (table : Table) {object : String}
    {heading : Schema.Heading} {shape : Schema.Shape}
    (known : schema.get? object = some (.object heading shape))
    (selectionSets : List (List Selection)) {found : Groups}
    (gathered : groups schema object (selectionSets.map table.unfold) = .ok found) :
    ∃ encounters, MeetsAll schema table object .given 0 selectionSets.flatten encounters ∧
      (∀ encounter ∈ encounters, encounter.Stands table selectionSets.flatten) ∧
      Assoc.keys found = (encounters.map (·.node.label.key)).eraseDups ∧
      ∀ entry ∈ found, entry.2 =
        ((firstBy (·.site) encounters).filter (·.node.label.key = entry.1)).map (·.node) := by
  have unfolds : ∀ unfolded ∈ selectionSets.map table.unfold, table.Unfolds unfolded :=
    List.forall_mem_map.mpr fun selections _ => ⟨selections, rfl⟩
  obtain ⟨encounters, run, added, rfl, echoes, distinct⟩ :=
    (groups_encounters unfolds).exists_right gathered
  rw [Table.flatten_map_unfold] at run
  have met := meetsAll_of_encounteredAll known .given 0 selectionSets.flatten run
  refine ⟨encounters, met, met.stands fun offset inner item => ?_, ?_, fun entry member => ?_⟩
  · rw [Nat.zero_add]
    exact .here item
  · rw [keys_grouped, List.map_map]
    exact (echoes.map fun encounter => encounter.node.label.key).firstBy_eq id
  · rw [nodes_of_mem_grouped (groups_gatheredFrom gathered).distinct member,
      ← echoes.firstBy_eq, firstBy_eq_self _ distinct, List.filter_map]
    rfl

def petSelectionSets : List (List Selection) :=
  [Lookahead.petSelections, [.inline (some "Pet") ⟨1, 1⟩ Lookahead.petSelections,
    .inline (some "Cat") ⟨1, 1⟩ Lookahead.petSelections]]

def dogGroups : Groups :=
  let name : FieldNode := ⟨⟨none, "name", ⟨1, 1⟩⟩, []⟩
  [("name", [name, name]),
    ("friend", [⟨⟨none, "friend", ⟨1, 1⟩⟩, [.field ⟨none, "name", ⟨1, 1⟩⟩ []]⟩])]

theorem groups_eq_encounters_of_dogs :
    groups .pets "Dog" (petSelectionSets.map Table.friendly.unfold) = .ok dogGroups ∧
      ∃ encounters, MeetsAll .pets .friendly "Dog" .given 0 petSelectionSets.flatten encounters ∧
        (∀ encounter ∈ encounters, encounter.Stands .friendly petSelectionSets.flatten) ∧
        Assoc.keys dogGroups = (encounters.map (·.node.label.key)).eraseDups ∧
        ∀ entry ∈ dogGroups, entry.2 =
          ((firstBy (·.site) encounters).filter (·.node.label.key = entry.1)).map (·.node) := by
  have gathered : groups .pets "Dog" (petSelectionSets.map Table.friendly.unfold) =
      .ok dogGroups := by
    rfl
  obtain ⟨heading, shape, known⟩ :
      ∃ heading shape, Schema.pets.get? "Dog" = some (.object heading shape) := ⟨_, _, rfl⟩
  exact ⟨gathered, groups_eq_encounters .friendly known petSelectionSets gathered⟩

end FieldLookahead.Plan
