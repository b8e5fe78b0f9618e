import FieldLookahead.Proofs.Lookahead.WellTyped
import FieldLookahead.Proofs.Plan.Agreement
import FieldLookahead.Proofs.Plan.Encounters

namespace FieldLookahead

open Fragment (Table Unfolded FieldNode)
open Query (FieldLabel Selection)

/-! Which selections a plan looks up. Lookaheads and positions look at selections in two different
ways, and only together do they tell what is known of the fields and fragments of a document. -/

/-- Object types and interfaces are asked themselves, and the first member is asked in place of a
union. -/
inductive Schema.Represents (schema : Schema) : String → String → Prop
  | object {scope : String} {heading : Heading} {shape : Shape}
      (found : schema.get? scope = some (.object heading shape)) : Represents schema scope scope
  | interface {scope : String} {heading : Heading} {shape : Shape}
      (found : schema.get? scope = some (.interface heading shape)) :
      Represents schema scope scope
  | member {scope first : String} {heading : Heading} {others : List String}
      (found : schema.get? scope = some (.union heading (first :: others))) :
      Represents schema first scope

theorem Schema.represents_iff {schema : Schema} {first scope : String} :
    schema.Represents first scope ↔
      ∃ others, schema.possibleTypes scope = .ok (first :: others) := by
  constructor
  · intro represents
    cases represents with
    | object found => exact ⟨_, possibleTypes_eq_ok.mpr (.object found)⟩
    | interface found => exact ⟨_, possibleTypes_eq_ok.mpr (.interface found)⟩
    | member found => exact ⟨_, possibleTypes_eq_ok.mpr (.union found)⟩
  · intro listed
    obtain ⟨others, possible⟩ := listed
    generalize same : first :: others = types at possible
    cases possibleTypes_eq_ok.mp possible with
    | object found =>
        cases same
        exact .object found
    | interface found =>
        cases same
        exact .interface found
    | union found => exact .member (same ▸ found)

/-- A way to look at selections. -/
structure Survey where
  enters : String → Prop
  finds : String → FieldLabel → List Selection → Prop
  descends : String → String → String → Prop

/-- All fields that a survey looks at in a selection of a type are as it finds them, and no spread
that it meets is of an undefined fragment. -/
inductive Surveyed (survey : Survey) (table : Table) : String → Selection → Prop
  | metaField {scope : String} {label : FieldLabel} {below : List Selection}
      (omitted : label.isMeta = true) : Surveyed survey table scope (.field label below)
  | field {scope : String} {label : FieldLabel} {below : List Selection}
      (recorded : label.isMeta = false) (found : survey.finds scope label below)
      (inside : ∀ typeName, survey.descends scope label.name typeName →
        ∀ inner ∈ below, Surveyed survey table typeName inner) :
      Surveyed survey table scope (.field label below)
  | bare {scope : String} {position : Syntax.Position} {below : List Selection}
      (inside : ∀ inner ∈ below, Surveyed survey table scope inner) :
      Surveyed survey table scope (.inline none position below)
  | conditioned {scope condition : String} {position : Syntax.Position} {below : List Selection}
      (inside : survey.enters condition →
        ∀ inner ∈ below, Surveyed survey table condition inner) :
      Surveyed survey table scope (.inline (some condition) position below)
  | spread {scope name : String} {position : Syntax.Position} {fragment : Query.Fragment}
      (defined : table.get? name = some fragment)
      (inside : survey.enters fragment.condition →
        ∀ inner ∈ fragment.selections, Surveyed survey table fragment.condition inner) :
      Surveyed survey table scope (.spread name position)

namespace Survey

def full (schema : Schema) : Survey where
  enters _ := True
  finds scope label _ := ∃ field, schema.field scope label.name = .ok field
  descends scope name typeName :=
    ∃ field, schema.field scope name = .ok field ∧ field.type.typeName = typeName

/-- Looks at the fields that an object type meets in one selection set. -/
def ofObject (schema : Schema) (object : String) (answered : FieldLabel → List Selection → Prop) :
    Survey where
  enters condition := schema.Covers object condition
  finds _ label below := answered label below
  descends _ _ _ := False

/-- Looks behind every condition and below every field of a composite type, but asks only for
fields with sub-selections, and one type only for each of them. -/
def ofRepresentatives (schema : Schema) : Survey where
  enters _ := True
  finds scope label below := below ≠ [] → ∀ first, schema.Represents first scope →
    ∃ field, schema.field first label.name = .ok field
  descends scope name typeName := ∃ first, schema.Represents first scope ∧
    schema.fieldType first name = .ok typeName ∧ schema.IsComposite typeName

end Survey

/-! The full survey can be computed. -/

mutual
def declares (schema : Schema) (scope : String) : Unfolded → Bool
  | .field label below => label.isMeta ||
    match schema.declaredTypeName? scope label.name with
    | none => false
    | some typeName => declaresAll schema typeName below
  | .inline condition? below => declaresAll schema (condition?.getD scope) below
  | .spread _ condition below => declaresAll schema condition below
  | .unknown _ => false
  termination_by structural selection => selection

def declaresAll (schema : Schema) (scope : String) : List Unfolded → Bool
  | [] => true
  | selection :: rest => declares schema scope selection && declaresAll schema scope rest
  termination_by structural selections => selections
end

section Full

variable {schema : Schema} {table : Table} {scope : String}

theorem declaresAll_unfold {selections : List Selection} :
    declaresAll schema scope (table.unfold selections) = true ↔
      ∀ selection ∈ selections, declares schema scope (table.unfoldOne selection) = true := by
  induction selections with
  | nil => simp [declaresAll]
  | cons selection rest ih => simp [declaresAll, ih]

theorem declares_field {label : FieldLabel} {below : List Selection} :
    declares schema scope (table.unfoldOne (.field label below)) = true ↔
      label.isMeta = true ∨ ∃ field, schema.field scope label.name = .ok field ∧
        ∀ inner ∈ below, declares schema field.type.typeName (table.unfoldOne inner) = true := by
  rw [Table.unfoldOne_field, declares, Bool.or_eq_true, Schema.declaredTypeName?]
  refine or_congr_right ?_
  cases schema.field scope label.name with
  | error fault => simp [Except.toOption]
  | ok field => simp [Except.toOption, declaresAll_unfold]

theorem surveyed_full_iff {selection : Selection} :
    Surveyed (.full schema) table scope selection ↔
      declares schema scope (table.unfoldOne selection) = true := by
  induction selection using table.induction generalizing scope with
  | field label below ih =>
      rw [declares_field]
      constructor
      · intro surveyed
        cases surveyed with
        | metaField omitted => exact .inl omitted
        | field _ found inside =>
            obtain ⟨field, declared⟩ := found
            refine .inr ⟨field, declared, fun inner member => (ih inner member).mp ?_⟩
            exact inside _ ⟨field, declared, rfl⟩ inner member
      · intro told
        cases recorded : label.isMeta with
        | true => exact .metaField recorded
        | false =>
            obtain ⟨field, declared, inside⟩ := told.resolve_left (by simp [recorded])
            refine .field recorded ⟨field, declared⟩ fun typeName descends inner member => ?_
            obtain ⟨again, declaredAgain, rfl⟩ := descends
            cases declared.symm.trans declaredAgain
            exact (ih inner member).mpr (inside inner member)
  | inline condition? position below ih =>
      rw [Table.unfoldOne_inline, declares, declaresAll_unfold]
      constructor
      · intro surveyed inner member
        cases surveyed with
        | bare inside => exact (ih inner member).mp (inside inner member)
        | conditioned inside => exact (ih inner member).mp (inside trivial inner member)
      · intro inside
        cases condition? with
        | none => exact .bare fun inner member => (ih inner member).mpr (inside inner member)
        | some condition =>
            exact .conditioned fun _ inner member => (ih inner member).mpr (inside inner member)
  | spread name position fragment defined ih =>
      rw [Table.unfoldOne_spread, Table.unfoldNamed_found defined, declares, declaresAll_unfold]
      constructor
      · intro surveyed inner member
        cases surveyed with
        | spread again inside =>
            cases defined.symm.trans again
            exact (ih inner member).mp (inside trivial inner member)
      · intro inside
        exact .spread defined fun _ inner member => (ih inner member).mpr (inside inner member)
  | missing name position undefined =>
      rw [Table.unfoldOne_spread, Table.unfoldNamed_missing undefined, declares]
      constructor
      · intro surveyed
        cases surveyed with
        | spread defined _ =>
            rw [undefined] at defined
            cases defined
      · intro impossible
        cases impossible

instance {selection : Selection} : Decidable (Surveyed (.full schema) table scope selection) :=
  decidable_of_iff _ surveyed_full_iff.symm

end Full

namespace Lookahead

variable {schema : Schema} {table : Table}

theorem candidatesAfter_of_represents {types crossed : List String} {first scope : String}
    (here : candidatesAfter schema types crossed = (schema.possibleTypes scope).toOption.getD [])
    (represents : schema.Represents first scope) :
    ∃ others, candidatesAfter schema types crossed = first :: others := by
  obtain ⟨others, possible⟩ := Schema.represents_iff.mp represents
  refine ⟨others, ?_⟩
  rw [here, possible]
  rfl

theorem Asks.nested {types crossed : List String} {label : FieldLabel} {below : List Selection}
    {first scope : String}
    (here : candidatesAfter schema types crossed = (schema.possibleTypes scope).toOption.getD [])
    (represents : schema.Represents first scope) (selects : below ≠ [])
    (asks : Asks schema types (fun _ _ => True) ⟨⟨label, table.unfold below⟩, crossed⟩) :
    ∃ typeName lookahead, schema.fieldType first label.name = .ok typeName ∧
      ofNodes schema typeName [⟨label, table.unfold below⟩] = .ok lookahead := by
  obtain ⟨others, candidates⟩ := candidatesAfter_of_represents here represents
  rcases asks with none | ⟨request, contributes, _⟩
  · have none : candidatesAfter schema types crossed = [] := none
    rw [candidates] at none
    cases none
  · cases contributes with
    | leaf bare => exact absurd bare (unfold_ne_nil selects)
    | nested _ again typed found =>
        have again : candidatesAfter schema types crossed = _ :: _ := again
        rw [candidates] at again
        cases again
        exact ⟨_, _, typed, found⟩

theorem surveyed_of_addable {types crossed : List String} {scope : String} {selection : Selection}
    (here : candidatesAfter schema types crossed = (schema.possibleTypes scope).toOption.getD [])
    (addable : Addable schema types (fun _ _ => True) crossed (table.unfoldOne selection)) :
    Surveyed (.ofRepresentatives schema) table scope selection := by
  induction selection using table.induction generalizing types crossed scope with
  | field label below ih =>
      rw [Table.unfoldOne_field, addable_field] at addable
      cases recorded : label.isMeta with
      | true => exact .metaField recorded
      | false =>
          have asks := addable.resolve_left (by simp [recorded])
          refine .field recorded ?_ ?_
          · intro selects first represents
            obtain ⟨_, _, typed, _⟩ := asks.nested here represents selects
            obtain ⟨field, _, declared, _⟩ := Schema.fieldType_eq_ok.mp typed
            exact ⟨field, declared⟩
          · intro typeName descends inner member
            obtain ⟨first, represents, typed, composite⟩ := descends
            obtain ⟨again, lookahead, typedAgain, found⟩ :=
              asks.nested here represents (List.ne_nil_of_mem member)
            rw [typed] at typedAgain
            cases typedAgain
            obtain ⟨inside, possible⟩ := composite.possibleTypes
            have each := (ofNodes_addable possible found _ (List.mem_singleton_self _)).each
            refine ih inner member ?_ (forall_mem_unfold.mp each inner member)
            exact candidatesAfter_eq possible []
  | inline condition? position below ih =>
      rw [Table.unfoldOne_inline] at addable
      cases condition? with
      | none =>
          have inside := forall_mem_unfold.mp (addable_bare.mp addable)
          exact .bare fun inner member => ih inner member here (inside inner member)
      | some condition =>
          have inside := forall_mem_unfold.mp (addable_conditioned.mp addable).2
          exact .conditioned fun _ inner member => ih inner member rfl (inside inner member)
  | spread name position fragment defined ih =>
      rw [Table.unfoldOne_spread, Table.unfoldNamed_found defined, addable_spread] at addable
      have inside := forall_mem_unfold.mp (addable_conditioned.mp addable).2
      exact .spread defined fun _ inner member => ih inner member rfl (inside inner member)
  | missing name position undefined =>
      rw [Table.unfoldOne_spread, Table.unfoldNamed_missing undefined] at addable
      cases addable.resolves

end Lookahead

namespace Plan

section Met

variable {schema : Schema} {table : Table} {object : String}
  {answered : FieldLabel → List Selection → Prop}

mutual
theorem Meets.surveyed {site : Site} {selection : Selection} {encounters : List Encounter} :
    Meets schema table object site selection encounters →
      (∀ encounter ∈ encounters, ∀ below, table.unfold below = encounter.node.below →
        answered encounter.node.label below) →
      ∀ scope, Surveyed (.ofObject schema object answered) table scope selection
  | .field recorded, answers, _ =>
      .field recorded (answers _ List.mem_cons_self _ rfl) fun _ descends => descends.elim
  | .metaField omitted, _, _ => .metaField omitted
  | .bare inside, answers, scope => .bare (inside.surveyed answers scope)
  | .covered _ inside, answers, _ => .conditioned fun _ => inside.surveyed answers _
  | .uncovered unmet, _, _ => .conditioned fun covers => absurd covers unmet
  | .spread defined _ inside, answers, _ => .spread defined fun _ => inside.surveyed answers _
  | .uncoveredSpread defined unmet, _, _ => .spread defined fun covers => absurd covers unmet

theorem MeetsAll.surveyed {around : Site} {index : Nat} {selections : List Selection}
    {encounters : List Encounter} :
    MeetsAll schema table object around index selections encounters →
      (∀ encounter ∈ encounters, ∀ below, table.unfold below = encounter.node.below →
        answered encounter.node.label below) →
      ∀ scope, ∀ selection ∈ selections,
        Surveyed (.ofObject schema object answered) table scope selection
  | .nil, _, _ => fun _ member => nomatch member
  | .cons here there, answers, scope => List.forall_mem_cons.mpr
      ⟨here.surveyed (fun encounter inside =>
          answers encounter (List.mem_append_left _ inside)) scope,
        there.surveyed (fun encounter inside =>
          answers encounter (List.mem_append_right _ inside)) scope⟩
end

theorem exists_group_of_selected {selectionSets : List (List Unfolded)} {found : Groups}
    (unfolds : ∀ selections ∈ selectionSets, table.Unfolds selections)
    (gathered : groups schema object selectionSets = .ok found) {selection : Unfolded}
    (member : selection ∈ selectionSets.flatten) :
    ∃ nodes, selected schema object selection = .ok nodes ∧
      ∀ node ∈ nodes, ∃ group ∈ found, group.1 = node.label.key ∧ node ∈ group.2 := by
  obtain ⟨all, met, added, rfl, echoes⟩ := (groups_follows unfolds).exists_right gathered
  obtain ⟨nodes, part, within⟩ := selected_of_mem met member
  refine ⟨nodes, part, fun node inside => ?_⟩
  have isAdded := (echoes.mem_of_mem_long (within inside)).resolve_left List.not_mem_nil
  have keyed : node.label.key ∈ Assoc.keys (grouped [] added) :=
    mem_keys_grouped.mpr (.inr ⟨node, isAdded, rfl⟩)
  obtain ⟨group, inGroups, same⟩ := List.mem_map.mp keyed
  refine ⟨group, inGroups, same, ?_⟩
  rw [nodes_of_mem_grouped (groups_gatheredFrom gathered).distinct inGroups, same]
  simpa using isAdded

theorem Answers.surveyed {selectionSets : List (List Unfolded)}
    (answers : Answers schema object selectionSets)
    (unfolds : ∀ selections ∈ selectionSets, table.Unfolds selections)
    (isObject : schema.types.isObject object = true)
    (visits : ∀ label below child,
      Selected schema object selectionSets label.key child →
        ⟨label, table.unfold below⟩ ∈ child.nodes → answered label below)
    {selection : Selection} (member : table.unfoldOne selection ∈ selectionSets.flatten)
    (scope : String) : Surveyed (.ofObject schema object answered) table scope selection := by
  obtain ⟨heading, shape, known⟩ := Schema.TypeTable.isObject_iff.mp isObject
  obtain ⟨found, gathered, entries⟩ := answers
  obtain ⟨nodes, part, grouped⟩ := exists_group_of_selected unfolds gathered member
  rw [selected_eq_map schema object .given] at part
  obtain ⟨encounters, run, rfl⟩ := map_eq_ok.mp part
  refine (meets_of_encountered known .given selection run).surveyed ?_ scope
  intro encounter met below unfolded
  obtain ⟨group, inGroups, keyed, inside⟩ := grouped _ (List.mem_map_of_mem met)
  obtain ⟨child, entryOf⟩ := entries group inGroups
  refine visits _ below child ⟨found, group.2, gathered, keyed ▸ inGroups, entryOf⟩ ?_
  rw [(isEntryOf_of_known entryOf).nodes_eq, unfolded]
  exact inside

end Met

variable {schema : Schema} {document : Query.Document} {name? : Option String} {plan : Plan}
  {object : String} {position : Position} {entry : Entry}

/-- A field is a node of the position of its key below a position. The object type there declares
the field that the first node of the key names. -/
def Answered (schema : Schema) (plan : Plan) (position : Position) (object : String)
    (label : FieldLabel) (below : List Selection) : Prop :=
  ∃ child first others field, (position ++ [⟨object, label.key⟩], child) ∈ plan.visits ∧
    ⟨label, plan.fragments.unfold below⟩ ∈ child.nodes ∧ child.nodes = first :: others ∧
    schema.field object first.label.name = .ok field

def Entry.Encloses (table : Table) (entry : Entry) (selection : Selection) : Prop :=
  ∃ node ∈ entry.nodes, ∃ below, table.unfold below = node.below ∧ selection ∈ below

/-- What is known of the selections of an operation that has a plan. -/
structure LookedUp (schema : Schema) (plan : Plan) : Prop where
  root : ∀ selection ∈ plan.operation.selections,
    Surveyed (.ofObject schema plan.root (Answered schema plan [] plan.root)) plan.fragments
      plan.root selection
  objects : ∀ position entry, (position, entry) ∈ plan.visits → ∀ types,
    schema.possibleTypes entry.type.typeName = .ok types → ∀ object ∈ types,
    schema.types.isObject object = true →
    ∀ selection, entry.Encloses plan.fragments selection →
      Surveyed (.ofObject schema object (Answered schema plan position object)) plan.fragments
        entry.type.typeName selection
  representatives : ∀ position entry, (position, entry) ∈ plan.visits →
    schema.IsComposite entry.type.typeName →
    ∀ selection, entry.Encloses plan.fragments selection →
      Surveyed (.ofRepresentatives schema) plan.fragments entry.type.typeName selection

theorem answered_of_selected {selectionSets : List (List Unfolded)} {child : Entry}
    {label : FieldLabel} {below : List Selection}
    (selected : Selected schema object selectionSets label.key child)
    (member : (position ++ [⟨object, label.key⟩], child) ∈ plan.visits)
    (inside : ⟨label, plan.fragments.unfold below⟩ ∈ child.nodes) :
    Answered schema plan position object label below := by
  obtain ⟨first, others, nodes, named⟩ := selected.isEntryOf.first
  obtain ⟨field, declared, _⟩ := selected.isEntryOf.declared
  exact ⟨child, first, others, field, member, inside, nodes, named ▸ declared⟩

theorem surveyed_root (made : ofDocument schema document name? = .ok plan) :
    ∀ selection ∈ plan.operation.selections,
      Surveyed (.ofObject schema plan.root (Answered schema plan [] plan.root)) plan.fragments
        plan.root selection := by
  intro selection member
  have walked := positions_of_ofDocument made
  have rooted := Schema.TypeTable.isObject_iff.mpr
    (Schema.exists_object_of_root? (root?_of_ofDocument made))
  refine (answers_of_positionsBelow walked).surveyed ?_ rooted ?_ ?_ _
  · exact List.forall_mem_singleton.mpr ⟨_, rfl⟩
  · intro label below child selected inside
    exact answered_of_selected selected ((mem_visits_iff made).mpr (.here selected)) inside
  · rw [List.flatten_singleton, Table.unfold_eq_map]
    exact List.mem_map_of_mem member

theorem surveyed_objects (made : ofDocument schema document name? = .ok plan)
    (member : (position, entry) ∈ plan.visits) {types : List String}
    (possible : schema.possibleTypes entry.type.typeName = .ok types) (inTypes : object ∈ types)
    (isObject : schema.types.isObject object = true) {selection : Selection}
    (enclosed : entry.Encloses plan.fragments selection) :
    Surveyed (.ofObject schema object (Answered schema plan position object)) plan.fragments
      entry.type.typeName selection := by
  obtain ⟨node, inNodes, below, unfolded, inside⟩ := enclosed
  obtain ⟨objects, followed, answers⟩ := followed_of_mem_visits made member
  have inObjects : object ∈ objects := by
    rw [objectsOf_eq possible] at followed
    cases followed
    exact List.mem_filter.mpr ⟨inTypes, isObject⟩
  refine (answers object inObjects).surveyed (unfolds_of_mem_visits made member) isObject ?_ ?_ _
  · intro label below child selected inside
    refine answered_of_selected selected ?_ inside
    exact (child_mem_visits_iff made member).mpr ⟨objects, followed, inObjects, selected⟩
  · refine List.mem_flatten.mpr ⟨node.below, List.mem_map_of_mem inNodes, ?_⟩
    rw [← unfolded, Table.unfold_eq_map]
    exact List.mem_map_of_mem inside

theorem surveyed_representatives (made : ofDocument schema document name? = .ok plan)
    (member : (position, entry) ∈ plan.visits)
    (composite : schema.IsComposite entry.type.typeName) {selection : Selection}
    (enclosed : entry.Encloses plan.fragments selection) :
    Surveyed (.ofRepresentatives schema) plan.fragments entry.type.typeName selection := by
  obtain ⟨node, inNodes, below, unfolded, inside⟩ := enclosed
  obtain ⟨types, possible⟩ := composite.possibleTypes
  obtain ⟨_, isEntry⟩ := ((mem_visits_iff made).mp member).isEntryOf
  have each := (Lookahead.ofNodes_addable possible isEntry.lookahead node inNodes).each
  rw [← unfolded] at each
  exact Lookahead.surveyed_of_addable (Lookahead.candidatesAfter_eq possible [])
    (Lookahead.forall_mem_unfold.mp each selection inside)

/-- Where there is a plan, each object type that is followed declares the fields that it meets, in
so far as they come first under their keys, and below each position of a composite type all
fields with sub-selections are declared; no spread that is met on the way is undefined. -/
theorem lookedUp_of_ofDocument (made : ofDocument schema document name? = .ok plan) :
    LookedUp schema plan where
  root := surveyed_root made
  objects _ _ member _ possible _ inTypes isObject _ :=
    surveyed_objects made member possible inTypes isObject
  representatives _ _ member composite _ := surveyed_representatives made member composite

theorem lookedUp_petPlan :
    ofDocument .pets petDocument none = .ok petPlan ∧ LookedUp .pets petPlan :=
  ⟨ofDocument_pets, lookedUp_of_ofDocument ofDocument_pets⟩

/-- Each asks for something that no type declares, where nothing is looked up: under a condition
that the root type does not meet, under conditions that no pet meets together, in a later node of
a key, and below a field whose type is a leaf. -/
def carelessDocuments : List Query.Document :=
  let field (name : String) (below : List Selection) : Selection :=
    .field ⟨none, name, ⟨1, 1⟩⟩ below
  let on (condition : String) (below : List Selection) : Selection :=
    .inline (some condition) ⟨1, 1⟩ below
  let query (selections : List Selection) : Query.Document :=
    [.operation ⟨.query, none, selections⟩]
  [query [on "Cat" [field "collar" []], field "pet" [field "name" []]],
    query [field "pet" [on "Dog" [on "Cat" [field "collar" []]]]],
    query [field "pet" [field "name" [], .field ⟨some "name", "collar", ⟨1, 1⟩⟩ []]],
    query [field "pet" [field "name" [field "length" [], .spread "Gone" ⟨1, 1⟩]]]]

theorem not_surveyed_of_careless {document : Query.Document}
    (member : document ∈ carelessDocuments) :
    ∃ plan, ofDocument .pets document none = .ok plan ∧
      ¬ ∀ selection ∈ plan.operation.selections,
        Surveyed (.full .pets) plan.fragments plan.root selection := by
  have careless : ∀ document ∈ carelessDocuments,
      (ofDocument .pets document none).toOption.any (fun plan => ¬ ∀ selection ∈
        plan.operation.selections, Surveyed (.full .pets) plan.fragments plan.root selection) =
          true := by
    decide +kernel
  have unsurveyed := careless document member
  cases made : ofDocument .pets document none with
  | error fault =>
      rw [made] at unsurveyed
      cases unsurveyed
  | ok plan =>
      rw [made] at unsurveyed
      exact ⟨plan, rfl, of_decide_eq_true unsurveyed⟩

theorem exists_plan_not_surveyed :
    ¬ ∀ (schema : Schema) (document : Query.Document) (name? : Option String) (plan : Plan),
      ofDocument schema document name? = .ok plan →
      ∀ selection ∈ plan.operation.selections,
        Surveyed (.full schema) plan.fragments plan.root selection := by
  intro surveyed
  have first : carelessDocuments.head (by decide) ∈ carelessDocuments := List.head_mem _
  obtain ⟨plan, made, unsurveyed⟩ := not_surveyed_of_careless first
  exact unsurveyed (surveyed .pets _ none plan made)

end Plan
end FieldLookahead
