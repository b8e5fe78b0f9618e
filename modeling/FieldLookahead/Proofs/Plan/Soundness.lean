import FieldLookahead.Proofs.Lookahead.WellTyped
import FieldLookahead.Proofs.Plan.Walk

namespace FieldLookahead.Plan

open Fragment (Table Unfolded FieldNode Occurrence)
open Fragment.Unfolded (merged Unanimous SameShape)
open Lookahead (Resolves TypedSet TypedNode TypedWithin WellTyped scopeAfter)

/-! An operation that is well typed, and whose fields can be merged, has a plan. -/

variable {schema : Schema} {table : Table} {object scope : String}

/-- Two fields of one response key that can be merged: both have sub-fields or neither has, and
they are the same field wherever one object type answers both. -/
structure CanMerge (schema : Schema) (left right : Occurrence) : Prop where
  shape : SameShape left right
  name : ∀ object, AppliesTo schema object left → AppliesTo schema object right →
    left.node.label.name = right.node.label.name

theorem gatherSelections_succeeds_of {below : List Unfolded}
    (each : ∀ inner ∈ below, ∀ start, ∃ finish,
      gatherSelection schema object inner start = .ok finish) (start : Gathering) :
    ∃ finish, gatherSelections schema object below start = .ok finish := by
  induction below generalizing start with
  | nil => exact ⟨start, rfl⟩
  | cons selection rest ih =>
      obtain ⟨here, there⟩ := List.forall_mem_cons.mp each
      obtain ⟨middle, gathered⟩ := here start
      obtain ⟨finish, others⟩ := ih there middle
      exact ⟨finish, bind_eq_ok.mpr ⟨middle, gathered, others⟩⟩

theorem whenMet_succeeds {condition : String} {candidates : List String}
    (possible : schema.possibleTypes condition = .ok candidates)
    {next : Except Lookahead.Fault Gathering} (goesOn : ∃ finish, next = .ok finish)
    (other : Gathering) :
    ∃ finish, (do if ← meets schema object condition then next else pure other) =
      .ok finish := by
  by_cases member : object ∈ candidates
  · obtain ⟨finish, run⟩ := goesOn
    exact ⟨finish, whenMet_eq_ok.mpr ⟨candidates, possible, .inl ⟨member, run⟩⟩⟩
  · exact ⟨other, whenMet_eq_ok.mpr ⟨candidates, possible, .inr ⟨member, rfl⟩⟩⟩

theorem gatherSelection_succeeds {selection : Unfolded} (resolves : Resolves schema selection)
    (start : Gathering) :
    ∃ finish, gatherSelection schema object selection start = .ok finish := by
  induction resolves generalizing start with
  | field => exact ⟨_, rfl⟩
  | bare _ ih => exact gatherSelections_succeeds_of ih start
  | conditioned possible _ ih =>
      exact whenMet_succeeds possible (gatherSelections_succeeds_of ih start) start
  | @spread name _ _ _ possible _ ih =>
      rw [gatherSelection]
      split
      · exact ⟨start, rfl⟩
      · exact whenMet_succeeds possible (gatherSelections_succeeds_of ih (start.enter name)) _

theorem groups_succeed {selectionSets : List (List Unfolded)}
    (resolve : ∀ selections ∈ selectionSets, ∀ selection ∈ selections,
      Resolves schema selection) :
    ∃ found, groups schema object selectionSets = .ok found := by
  have each : ∀ selection ∈ selectionSets.flatten, ∀ start, ∃ finish,
      gatherSelection schema object selection start = .ok finish := by
    intro selection member start
    obtain ⟨selections, outer, member⟩ := List.mem_flatten.mp member
    exact gatherSelection_succeeds (resolve selections outer selection member) start
  obtain ⟨finish, run⟩ := gatherSelections_succeeds_of each .empty
  exact ⟨finish.groups, groups_eq_ok.mpr ⟨finish, run, rfl⟩⟩

/-- A place of a walk: an object type that a scope may turn out to be, and selection sets that
are well typed there and among selections whose fields can be merged. -/
structure Place (schema : Schema) (table : Table) (scope : String) (selections : List Unfolded)
    (object : String) (selectionSets : List (List Unfolded)) : Prop where
  possible : ∃ types, schema.possibleTypes scope = .ok types ∧ object ∈ types
  typed : ∀ set ∈ selectionSets, TypedSet schema table scope set
  within : ∀ set ∈ selectionSets, set ⊆ selections
  merges : Unanimous (CanMerge schema) selections

/-- The nodes of a group are one field of the object type, with sub-fields that are well typed
exactly if the field has a composite type. -/
structure TypedGroup (schema : Schema) (table : Table) (object : String)
    (selections : List Unfolded) (nodes : List FieldNode) (field : Schema.Field) : Prop where
  declared : ∀ node ∈ nodes, schema.field object node.label.name = .ok field
  selects : schema.isLeaf field.type.typeName = .ok true ∨
    ∃ types, schema.possibleTypes field.type.typeName = .ok types ∧
      ∀ node ∈ nodes, TypedWithin schema table field.type.typeName selections node
  merges : Unanimous (CanMerge schema) selections

variable {selections : List Unfolded} {selectionSets : List (List Unfolded)}

theorem typedNode_of_possible (conforming : schema.Conforming) {types : List String}
    (possible : schema.possibleTypes scope = .ok types) (member : object ∈ types)
    {node : FieldNode} {field : Schema.Field} (typed : TypedNode schema table scope node field) :
    ∃ own, TypedNode schema table object node own := by
  obtain ⟨own, declared, same⟩ := conforming.field possible typed.declared member
  exact ⟨own, declared, same ▸ typed.selects⟩

theorem AppliesTo.mem_possibleTypes {types : List String} {occurrence : Occurrence}
    (possible : schema.possibleTypes scope = .ok types) (member : object ∈ types)
    (applies : AppliesTo schema object occurrence) :
    ∃ types, schema.possibleTypes (scopeAfter scope occurrence.conditions) = .ok types ∧
      object ∈ types := by
  obtain ⟨node, conditions⟩ := occurrence
  cases conditions with
  | nil => exact ⟨types, possible, member⟩
  | cons condition _ => exact applies condition List.mem_cons_self

namespace Place

variable {found : Groups} {key : String} {nodes : List FieldNode}

theorem node (place : Place schema table scope selections object selectionSets)
    (conforming : schema.Conforming) (gathered : groups schema object selectionSets = .ok found)
    (member : (key, nodes) ∈ found) :
    ∀ node ∈ nodes, ∃ occurrence ∈ Unfolded.reachedAll [] selections,
      occurrence.node = node ∧ node.label.key = key ∧ AppliesTo schema object occurrence ∧
        ∃ own, TypedNode schema table object node own := by
  intro node inside
  have gatheredFrom := groups_gatheredFrom gathered
  obtain ⟨occurrence, reached, rfl, applies⟩ := gatheredFrom.origin _ member node inside
  obtain ⟨set, outer, reached⟩ := List.mem_flatMap.mp reached
  obtain ⟨field, typed⟩ := (place.typed set outer).reached occurrence reached
  obtain ⟨types, possible, isPossible⟩ := place.possible
  obtain ⟨inner, possible, meets⟩ := applies.mem_possibleTypes possible isPossible
  exact ⟨occurrence, Unfolded.reachedAll_subset (place.within set outer) reached, rfl,
    gatheredFrom.keyed _ member _ inside, applies,
    typedNode_of_possible conforming possible meets typed⟩

theorem group (place : Place schema table scope selections object selectionSets)
    (conforming : schema.Conforming) (gathered : groups schema object selectionSets = .ok found)
    (member : (key, nodes) ∈ found) :
    ∃ field, TypedGroup schema table object (merged key selections) nodes field := by
  have each := place.node conforming gathered member
  obtain ⟨first, firstInside⟩ :=
    List.exists_mem_of_ne_nil nodes ((groups_gatheredFrom gathered).filled _ member)
  obtain ⟨lead, leadReached, rfl, leadKey, leadApplies, field, leadTyped⟩ :=
    each first firstInside
  have merges : Unanimous (CanMerge schema) (merged key selections) :=
    leadKey ▸ place.merges.merged leadReached
  have typed : ∀ node ∈ nodes, TypedNode schema table object node field := by
    intro node inside
    obtain ⟨occurrence, reached, rfl, sameKey, applies, own, typed⟩ := each node inside
    have sameName := (place.merges.agree reached leadReached (sameKey.trans leadKey.symm)).name
      object applies leadApplies
    have declared := typed.declared
    rw [sameName, leadTyped.declared] at declared
    cases declared
    exact typed
  have within : ∀ node ∈ nodes, node.below ⊆ merged key selections := by
    intro node inside
    obtain ⟨occurrence, reached, rfl, sameKey, _⟩ := each node inside
    exact sameKey ▸ Unfolded.below_subset_merged reached
  refine ⟨field, fun node inside => (typed node inside).declared, ?_, merges⟩
  rcases leadTyped.selects with ⟨isLeaf, _⟩ | ⟨composite, _⟩
  · exact .inl isLeaf
  · obtain ⟨types, possible⟩ := composite.possibleTypes
    refine .inr ⟨types, possible, fun node inside => ?_⟩
    rcases (typed node inside).selects with ⟨isLeaf, _⟩ | ⟨_, selects, set⟩
    · rw [Lookahead.isLeaf_of_possibleTypes possible] at isLeaf
      cases isLeaf
    · exact ⟨selects, set, within node inside⟩

end Place

namespace TypedGroup

variable {nodes : List FieldNode} {field : Schema.Field}

theorem ofNodes (group : TypedGroup schema table object selections nodes field) :
    ∃ lookahead, Lookahead.ofNodes schema field.type.typeName nodes = .ok lookahead := by
  rcases group.selects with isLeaf | ⟨types, possible, typed⟩
  · exact ⟨[], Lookahead.ofNodes_eq_ok.mpr (.inl ⟨isLeaf, rfl⟩)⟩
  · have shapes := group.merges.imp fun _ _ merge => merge.shape
    obtain ⟨lookahead, made, _⟩ := Lookahead.ofNodes_fit possible shapes typed
    exact ⟨lookahead, made⟩

theorem referenced (group : TypedGroup schema table object selections nodes field) :
    schema.referenced field.type = .ok field.type.typeName := by
  have known : ∃ type, schema.type field.type.typeName = .ok type := by
    rcases group.selects with isLeaf | ⟨types, possible, _⟩
    · obtain ⟨kind, known, _⟩ := map_eq_ok.mp isLeaf
      obtain ⟨type, known, _⟩ := map_eq_ok.mp known
      exact ⟨type, known⟩
    · obtain ⟨type, known, _⟩ := bind_eq_ok.mp possible
      exact ⟨type, known⟩
  obtain ⟨type, known⟩ := known
  exact map_eq_ok.mpr ⟨type, known, rfl⟩

theorem exists_entry (group : TypedGroup schema table object selections nodes field)
    (filled : nodes ≠ []) :
    ∃ entry, entryOfGroup? schema object nodes = .ok (some entry) ∧ entry.type = field.type := by
  cases nodes with
  | nil => exact absurd rfl filled
  | cons first others =>
      have declared := group.declared first List.mem_cons_self
      obtain ⟨lookahead, made⟩ := group.ofNodes
      have entry : Entry.ofNodes schema object first.label.name field.type (first :: others) =
          .ok ⟨object, first.label.name, field.type, first :: others, lookahead⟩ :=
        bind_eq_ok.mpr ⟨field, mapError_eq_ok.mpr declared, bind_eq_ok.mpr
          ⟨_, mapError_eq_ok.mpr group.referenced, bind_eq_ok.mpr ⟨lookahead, made, rfl⟩⟩⟩
      exact ⟨_, bind_eq_ok.mpr ⟨field, mapError_eq_ok.mpr declared,
        bind_eq_ok.mpr ⟨_, entry, rfl⟩⟩, rfl⟩

theorem follows (group : TypedGroup schema table object selections nodes field) :
    ∃ objects, objectsOf schema field.type.typeName = .ok objects ∧
      ∀ inner ∈ objects, Place schema table field.type.typeName selections inner
        (nodes.map (·.below)) := by
  rcases group.selects with isLeaf | ⟨types, possible, typed⟩
  · exact ⟨[], bind_eq_ok.mpr ⟨true, isLeaf, rfl⟩, fun _ member => nomatch member⟩
  · refine ⟨_, objectsOf_eq possible, fun inner member => ?_⟩
    refine ⟨⟨types, possible, List.mem_of_mem_filter member⟩, ?_, ?_, group.merges⟩
    · exact List.forall_mem_map.mpr fun node inside => (typed node inside).typed
    · exact List.forall_mem_map.mpr fun node inside => (typed node inside).within

end TypedGroup

theorem Place.positionsBelow_succeeds (conforming : schema.Conforming) (depth : Nat)
    (place : Place schema table scope selections object selectionSets) (above : Position) :
    ∃ visits, positionsBelow schema depth above object selectionSets = .ok visits := by
  induction depth generalizing scope selections object selectionSets above with
  | zero => exact ⟨[], rfl⟩
  | succ depth ih =>
      have gathers : ∃ found, groups schema object selectionSets = .ok found :=
        groups_succeed fun set member => (place.typed set member).resolves
      obtain ⟨found, gathered⟩ := gathers
      have each : ∀ group ∈ found, ∃ part,
          visitsOfGroup schema depth above object group = .ok part := by
        rintro ⟨key, nodes⟩ member
        obtain ⟨field, group⟩ := place.group conforming gathered member
        obtain ⟨entry, known, same⟩ :=
          group.exists_entry ((groups_gatheredFrom gathered).filled _ member)
        obtain ⟨objects, followed, places⟩ := group.follows
        obtain ⟨inner, walked⟩ := mapM_succeeds fun next nextMember =>
          ih (places next nextMember) (above ++ [⟨object, key⟩])
        rw [← same] at followed
        exact ⟨_, bind_eq_ok.mpr ⟨some entry, known, bind_eq_ok.mpr
          ⟨objects, mapError_eq_ok.mpr followed, bind_eq_ok.mpr ⟨inner, walked, rfl⟩⟩⟩⟩
      obtain ⟨parts, made⟩ := mapM_succeeds each
      exact ⟨parts.flatten, bind_eq_ok.mpr ⟨found, gathered, bind_eq_ok.mpr ⟨parts, made, rfl⟩⟩⟩

theorem possibleTypes_root {kind : Query.OperationKind} {root : String}
    (rooted : schema.root? kind = some root) : schema.possibleTypes root = .ok [root] := by
  obtain ⟨_, _, known⟩ := Schema.exists_object_of_root? rooted
  exact Schema.possibleTypes_eq_ok.mpr (.object known)

/-- An operation of a conforming schema that is well typed at its root type, and any two of whose
fields under one response key can be merged at every depth, has a plan. -/
theorem ofDocument_succeeds (conforming : schema.Conforming) {document : Query.Document}
    {name? : Option String} {operation : Query.Operation} {root : String}
    (chosen : chooseOperation document name? = .ok operation)
    (built : Table.ofDocument document = .ok table)
    (rooted : schema.root? operation.kind = some root)
    (typed : ∀ selection ∈ operation.selections, WellTyped schema table root selection)
    (merges : Unanimous (CanMerge schema) (table.unfold operation.selections)) :
    ∃ plan, ofDocument schema document name? = .ok plan := by
  have place : Place schema table root (table.unfold operation.selections) root
      [table.unfold operation.selections] := by
    refine ⟨⟨[root], possibleTypes_root rooted, List.mem_singleton_self _⟩, ?_, ?_, merges⟩
    · exact List.forall_mem_singleton.mpr ⟨operation.selections, rfl, typed⟩
    · exact List.forall_mem_singleton.mpr (List.Subset.refl _)
  obtain ⟨visits, walked⟩ := place.positionsBelow_succeeds conforming
    (Unfolded.heightOfAll (table.unfold operation.selections) + 1) []
  rw [ofDocument_eq schema chosen built, rooted]
  exact ⟨_, bind_eq_ok.mpr ⟨visits, mapError_eq_ok.mpr walked, rfl⟩⟩

def friendsOperation : Query.Operation :=
  ⟨.query, none, [.field ⟨none, "pet", ⟨1, 1⟩⟩ (Lookahead.petSelections ++
    [.inline (some "Cat") ⟨1, 1⟩ [.field ⟨none, "friend", ⟨1, 1⟩⟩
      [.inline none ⟨1, 1⟩ [.field ⟨none, "name", ⟨1, 1⟩⟩ []]]]])]⟩

def friendsDocument : Query.Document :=
  [.operation friendsOperation, .fragment ⟨"friendly", "Dog", ⟨1, 1⟩,
    [.field ⟨none, "friend", ⟨1, 1⟩⟩ [.field ⟨none, "name", ⟨1, 1⟩⟩ []]]⟩]

theorem wellTyped_friendsOperation :
    ∀ selection ∈ friendsOperation.selections, WellTyped .pets .friendly "Query" selection := by
  have isComposite : Schema.pets.IsComposite "Pet" := ⟨.interface, rfl, rfl⟩
  have named : WellTyped .pets .friendly "Pet" (.field ⟨none, "name", ⟨1, 1⟩⟩ []) := .leaf rfl rfl
  have ofDog : ∀ selection ∈ [Query.Selection.field ⟨none, "friend", ⟨1, 1⟩⟩
      [.field ⟨none, "name", ⟨1, 1⟩⟩ []]], WellTyped .pets .friendly "Dog" selection :=
    List.forall_mem_singleton.mpr
      (.composite rfl isComposite (by simp) (List.forall_mem_singleton.mpr named))
  have ofCat : ∀ selection ∈ [Query.Selection.field ⟨none, "friend", ⟨1, 1⟩⟩
      [.inline none ⟨1, 1⟩ [.field ⟨none, "name", ⟨1, 1⟩⟩ []]]],
        WellTyped .pets .friendly "Cat" selection :=
    List.forall_mem_singleton.mpr (.composite rfl isComposite (by simp)
      (List.forall_mem_singleton.mpr (.bare (List.forall_mem_singleton.mpr named))))
  refine List.forall_mem_singleton.mpr (.composite rfl isComposite (by simp) ?_)
  refine List.forall_mem_cons.mpr ⟨named, List.forall_mem_cons.mpr ⟨?_, ?_⟩⟩
  · exact .spread rfl ⟨.object, rfl, rfl⟩ ofDog
  · exact List.forall_mem_singleton.mpr (.conditioned ⟨.object, rfl, rfl⟩ ofCat)

theorem canMerge_friendsOperation :
    Unanimous (CanMerge .pets) (Table.friendly.unfold friendsOperation.selections) := by
  have fields : Unanimous (fun left right => SameShape left right ∧
      left.node.label.name = right.node.label.name)
        (Table.friendly.unfold friendsOperation.selections) := by
    decide +kernel
  exact fields.imp fun _ _ ⟨shape, name⟩ => ⟨shape, fun _ _ _ => name⟩

theorem ofDocument_succeeds_of_pets :
    Schema.pets.Conforming ∧ ∃ plan, ofDocument .pets friendsDocument none = .ok plan := by
  have conforming : Schema.pets.Conforming := by decide +kernel
  have chosen : chooseOperation friendsDocument none = .ok friendsOperation := rfl
  exact ⟨conforming, ofDocument_succeeds conforming chosen rfl rfl wellTyped_friendsOperation
    canMerge_friendsOperation⟩

end FieldLookahead.Plan
