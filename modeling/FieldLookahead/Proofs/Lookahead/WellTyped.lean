import FieldLookahead.Proofs.Lookahead.Completion
import FieldLookahead.Proofs.Lookahead.Merging
import FieldLookahead.Proofs.Schema.Conformance

namespace FieldLookahead.Lookahead

open Fragment (Table Unfolded FieldNode Occurrence)
open Fragment.Unfolded (merged Unanimous SameShape)

/-! Selections that are well typed always have a lookahead, if the fields merged under each key
agree on having sub-fields. -/

/-- A selection makes sense for values of a composite type: fields are declared and have
sub-fields exactly if their type is composite, all conditions are composite types, and all spread
fragments are defined. Fields about the schema itself may be anything. -/
inductive WellTyped (schema : Schema) (table : Table) : String → Query.Selection → Prop
  | metaField {scope : String} {label : Query.FieldLabel} {below : List Query.Selection}
      (omitted : label.isMeta = true) : WellTyped schema table scope (.field label below)
  | leaf {scope : String} {label : Query.FieldLabel} {field : Schema.Field}
      (declared : schema.field scope label.name = .ok field)
      (isLeaf : schema.isLeaf field.type.typeName = .ok true) :
      WellTyped schema table scope (.field label [])
  | composite {scope : String} {label : Query.FieldLabel} {below : List Query.Selection}
      {field : Schema.Field} (declared : schema.field scope label.name = .ok field)
      (isComposite : schema.IsComposite field.type.typeName) (selects : below ≠ [])
      (inside : ∀ inner ∈ below, WellTyped schema table field.type.typeName inner) :
      WellTyped schema table scope (.field label below)
  | bare {scope : String} {position : Syntax.Position} {below : List Query.Selection}
      (inside : ∀ inner ∈ below, WellTyped schema table scope inner) :
      WellTyped schema table scope (.inline none position below)
  | conditioned {scope condition : String} {position : Syntax.Position}
      {below : List Query.Selection} (isComposite : schema.IsComposite condition)
      (inside : ∀ inner ∈ below, WellTyped schema table condition inner) :
      WellTyped schema table scope (.inline (some condition) position below)
  | spread {scope name : String} {position : Syntax.Position} {fragment : Query.Fragment}
      (found : table.get? name = some fragment)
      (isComposite : schema.IsComposite fragment.condition)
      (inside : ∀ inner ∈ fragment.selections,
        WellTyped schema table fragment.condition inner) :
      WellTyped schema table scope (.spread name position)

variable {schema : Schema} {table : Table} {scope outside : String}

def TypedSet (schema : Schema) (table : Table) (scope : String) (unfolded : List Unfolded) :
    Prop :=
  ∃ selections, table.unfold selections = unfolded ∧
    ∀ selection ∈ selections, WellTyped schema table scope selection

/-- A field that its scope declares with a type, unfolded from a well-typed selection. -/
structure TypedNode (schema : Schema) (table : Table) (scope : String) (node : FieldNode)
    (field : Schema.Field) : Prop where
  declared : schema.field scope node.label.name = .ok field
  selects : schema.isLeaf field.type.typeName = .ok true ∧ node.below = [] ∨
    schema.IsComposite field.type.typeName ∧ node.below ≠ [] ∧
      TypedSet schema table field.type.typeName node.below

/-- The type that selections are about after some conditions: the innermost condition, or else
the type outside. -/
def scopeAfter (outside : String) : List String → String
  | [] => outside
  | condition :: _ => condition

def TypedOccurrence (schema : Schema) (table : Table) (outside : String)
    (occurrence : Occurrence) : Prop :=
  ∃ field, TypedNode schema table (scopeAfter outside occurrence.conditions) occurrence.node field

theorem forall_mem_unfold {Holds : Unfolded → Prop} {selections : List Query.Selection} :
    (∀ inner ∈ table.unfold selections, Holds inner) ↔
      ∀ selection ∈ selections, Holds (table.unfoldOne selection) := by
  rw [Table.unfold_eq_map, List.forall_mem_map]

theorem forall_mem_reachedAll_unfold {Holds : Occurrence → Prop} {crossed : List String}
    {selections : List Query.Selection}
    (each : ∀ selection ∈ selections, ∀ occurrence ∈ (table.unfoldOne selection).reached crossed,
      Holds occurrence) :
    ∀ occurrence ∈ Unfolded.reachedAll crossed (table.unfold selections), Holds occurrence := by
  intro occurrence reached
  obtain ⟨selection, member, reached⟩ := Table.mem_reachedAll_unfold.mp reached
  exact each selection member occurrence reached

theorem unfold_ne_nil {selections : List Query.Selection} (selects : selections ≠ []) :
    table.unfold selections ≠ [] := by
  rw [Table.unfold_eq_map]
  exact mt List.map_eq_nil_iff.mp selects

theorem WellTyped.resolves {selection : Query.Selection}
    (typed : WellTyped schema table scope selection) :
    Resolves schema (table.unfoldOne selection) := by
  induction typed with
  | metaField _ | leaf _ _ | composite _ _ _ _ => exact .field
  | bare _ ih => exact .bare (forall_mem_unfold.mpr ih)
  | conditioned isComposite _ ih =>
      obtain ⟨types, possible⟩ := isComposite.possibleTypes
      exact .conditioned possible (forall_mem_unfold.mpr ih)
  | spread found isComposite _ ih =>
      obtain ⟨types, possible⟩ := isComposite.possibleTypes
      rw [Table.unfoldOne_spread, Table.unfoldNamed_found found]
      exact .spread possible (forall_mem_unfold.mpr ih)

theorem WellTyped.reached {selection : Query.Selection}
    (typed : WellTyped schema table scope selection) {crossed : List String}
    (here : scopeAfter outside crossed = scope) :
    ∀ occurrence ∈ (table.unfoldOne selection).reached crossed,
      TypedOccurrence schema table outside occurrence := by
  induction typed generalizing crossed with
  | metaField omitted =>
      intro occurrence reached
      obtain ⟨recorded, rfl⟩ := Unfolded.mem_reached_field.mp reached
      rw [omitted] at recorded
      cases recorded
  | @leaf scope label field declared isLeaf =>
      intro occurrence reached
      obtain ⟨_, rfl⟩ := Unfolded.mem_reached_field.mp reached
      exact ⟨field, here ▸ declared, .inl ⟨isLeaf, rfl⟩⟩
  | @composite scope label below field declared isComposite selects inside _ =>
      intro occurrence reached
      obtain ⟨_, rfl⟩ := Unfolded.mem_reached_field.mp reached
      exact ⟨field, here ▸ declared,
        .inr ⟨isComposite, unfold_ne_nil selects, below, rfl, inside⟩⟩
  | bare _ ih => exact forall_mem_reachedAll_unfold fun inner member => ih inner member here
  | conditioned _ _ ih => exact forall_mem_reachedAll_unfold fun inner member => ih inner member rfl
  | spread found _ _ ih =>
      rw [Table.unfoldOne_spread, Table.unfoldNamed_found found]
      exact forall_mem_reachedAll_unfold fun inner member => ih inner member rfl

namespace TypedSet

variable {unfolded : List Unfolded}

theorem resolves (typed : TypedSet schema table scope unfolded) :
    ∀ selection ∈ unfolded, Resolves schema selection := by
  obtain ⟨selections, rfl, typed⟩ := typed
  exact forall_mem_unfold.mpr fun selection member => (typed selection member).resolves

theorem reached (typed : TypedSet schema table scope unfolded) :
    ∀ occurrence ∈ Unfolded.reachedAll [] unfolded,
      TypedOccurrence schema table scope occurrence := by
  obtain ⟨selections, rfl, typed⟩ := typed
  exact forall_mem_reachedAll_unfold fun selection member => (typed selection member).reached rfl

end TypedSet

theorem candidatesAfter_eq {types : List String}
    (possible : schema.possibleTypes outside = .ok types) (crossed : List String) :
    candidatesAfter schema types crossed =
      (schema.possibleTypes (scopeAfter outside crossed)).toOption.getD [] := by
  cases crossed with
  | nil =>
      rw [scopeAfter, possible]
      rfl
  | cons condition _ => rfl

theorem TypedNode.candidates {types : List String} {occurrence : Occurrence} {field : Schema.Field}
    (possible : schema.possibleTypes outside = .ok types)
    (typed : TypedNode schema table (scopeAfter outside occurrence.conditions) occurrence.node
      field) :
    ∃ others, candidatesAfter schema types occurrence.conditions =
      scopeAfter outside occurrence.conditions :: others := by
  obtain ⟨others, listed⟩ := Schema.possibleTypes_of_field typed.declared
  rw [candidatesAfter_eq possible, listed]
  exact ⟨others, rfl⟩

/-- A field whose sub-fields are well typed and are among some selections. -/
structure TypedWithin (schema : Schema) (table : Table) (scope : String)
    (selections : List Unfolded) (node : FieldNode) : Prop where
  selects : node.below ≠ []
  typed : TypedSet schema table scope node.below
  within : node.below ⊆ selections

variable {selections : List Unfolded}

theorem takesIn_fit (schema : Schema) (outside : List String) (selections : List Unfolded) :
    TakesIn schema outside
      (fun occurrence => Request.Fits (merged occurrence.node.label.key selections))
      (Lookahead.Fit selections) := by
  intro occurrence request fits candidate _ before fit
  cases present : Assoc.get? candidate before with
  | none => exact ⟨before, addTo_eq_done.mpr (.inl ⟨present, rfl⟩), fit⟩
  | some requests =>
      have single : Requests.Fit selections [(occurrence.node.label.key, request)] := by
        intro entry member
        cases List.mem_singleton.mp member
        exact fits
      obtain ⟨sum, absorbed, sumFit⟩ :=
        Requests.absorb_fit (fit _ (Assoc.mem_of_get? present)) single
      exact ⟨Assoc.insert candidate sum before,
        addTo_eq_done.mpr (.inr ⟨requests, sum, present, absorbed, rfl⟩), fit.insert sumFit⟩

theorem ofTypes_fit (types : List String) : Lookahead.Fit selections (ofTypes types) := by
  rw [ofTypes, Assoc.ofList, List.foldl_map]
  refine List.foldlRecOn types _ Assoc.All.nil ?_
  exact fun _ fit _ _ => fit.insert Assoc.All.nil

theorem ofNodes_fit {types : List String} {nodes : List FieldNode}
    (possible : schema.possibleTypes scope = .ok types)
    (unanimous : Unanimous SameShape selections)
    (typed : ∀ node ∈ nodes, TypedWithin schema table scope selections node) :
    ∃ lookahead, ofNodes schema scope nodes = .ok lookahead ∧
      Lookahead.Fit selections lookahead := by
  induction nodes using FieldNode.induction generalizing scope types selections with
  | step nodes ih =>
  refine ofNodes_succeeds possible (takesIn_fit schema types selections) ?_ (ofTypes_fit types)
  intro node member
  obtain ⟨selects, set, within⟩ := typed node member
  refine ⟨selects, set.resolves, fun occurrence reached => .inr ?_⟩
  obtain ⟨field, known⟩ := set.reached occurrence reached
  obtain ⟨others, candidates⟩ := known.candidates possible
  have inside := Unfolded.reachedAll_subset within reached
  have merges := unanimous.merged_eq_nil_iff inside
  rcases known.selects with ⟨_, bare⟩ | ⟨composite, selects, below⟩
  · exact ⟨.leaf, .leaf bare, .leaf (merges.mpr bare)⟩
  · have ⟨kind, kindKnown, _⟩ := composite
    obtain ⟨types, possible⟩ := composite.possibleTypes
    have within : ∀ inner ∈ [occurrence.node], TypedWithin schema table field.type.typeName
        (merged occurrence.node.label.key selections) inner := by
      intro inner single
      cases List.mem_singleton.mp single
      exact ⟨selects, below, Unfolded.below_subset_merged inside⟩
    obtain ⟨found, made, fit⟩ :=
      ih node member occurrence reached possible (unanimous.merged inside) within
    exact ⟨.nested found, .nested selects candidates
      (Schema.fieldType_eq_ok.mpr ⟨field, kind, known.declared, kindKnown, rfl⟩) made,
      .nested (mt merges.mp selects) fit⟩

end FieldLookahead.Lookahead
