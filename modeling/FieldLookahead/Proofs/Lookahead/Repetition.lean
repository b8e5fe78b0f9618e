import FieldLookahead.Proofs.Echo
import FieldLookahead.Proofs.Fragment.Inlining
import FieldLookahead.Proofs.Lookahead.Completion

namespace FieldLookahead

open Fragment (Unfolded FieldNode)

/-! What a lookahead does not depend on: which fragments its selections come from, and whether a
field comes again that has been added before. -/

def Fragment.FieldNode.inlined (node : FieldNode) : FieldNode :=
  ⟨node.label, Unfolded.inlinedAll node.below⟩

namespace Lookahead

variable {schema : Schema}

mutual
theorem addSelection_inlined (schema : Schema) :
    ∀ (selection : Unfolded) (candidates : List String),
      addSelection schema candidates selection.inlined = addSelection schema candidates selection
  | .field label below, candidates => by
      funext start
      have same :
          (fun inner start => addSelections schema inner (Unfolded.inlinedAll below) start) =
            fun inner start => addSelections schema inner below start :=
        funext fun inner => addSelections_inlinedAll schema below inner
      have empty : (Unfolded.inlinedAll below).isEmpty = below.isEmpty := by
        rw [Unfolded.inlinedAll_eq_map, List.isEmpty_map]
      rw [Unfolded.inlined, addSelection.eq_def, addSelection.eq_def]
      simp only [empty, same]
  | .inline none below, candidates => by
      funext start
      rw [Unfolded.inlined, addSelection, addSelection, addSelections_inlinedAll]
  | .inline (some condition) below, candidates => by
      funext start
      rw [Unfolded.inlined, addSelection, addSelection]
      simp only [addSelections_inlinedAll schema below]
  | .spread name condition below, candidates => by
      funext start
      rw [Unfolded.inlined, addSelection, addSelection]
      simp only [addSelections_inlinedAll schema below]
  | .unknown name, candidates => by rw [Unfolded.inlined]

theorem addSelections_inlinedAll (schema : Schema) :
    ∀ (selections : List Unfolded) (candidates : List String),
      addSelections schema candidates (Unfolded.inlinedAll selections) =
        addSelections schema candidates selections
  | [], candidates => rfl
  | selection :: rest, candidates => by
      funext start
      rw [Unfolded.inlinedAll, addSelections, addSelections, addSelection_inlined,
        addSelections_inlinedAll]
end

theorem addNode_inlined (schema : Schema) (typeName : String) (candidates : List String)
    (node : FieldNode) :
    addNode schema typeName candidates node.inlined = addNode schema typeName candidates node := by
  funext start
  have empty : (Unfolded.inlinedAll node.below).isEmpty = node.below.isEmpty := by
    rw [Unfolded.inlinedAll_eq_map, List.isEmpty_map]
  rw [addNode, addNode, FieldNode.inlined, empty, addSelections_inlinedAll]

variable {typeName : String} {types : List String}

theorem addNode_again (possible : schema.possibleTypes typeName = .ok types)
    {added : List FieldNode} {lookahead : Lookahead}
    (found : ofNodes schema typeName added = .ok lookahead) {node : FieldNode}
    (member : node ∈ added) :
    addNode schema typeName types node lookahead = .done lookahead := by
  have addable := ofNodes_addable possible found node member
  have includes : AddableNode schema types (Includes schema types lookahead) node := by
    refine ⟨addable.selects, addable.resolves, fun occurrence reached => ?_⟩
    rcases addable.asks occurrence reached with none | ⟨request, contributes, _⟩
    · exact .inl none
    · exact .inr ⟨request, contributes, ofNodes_includes possible found member reached contributes⟩
  have again : ∃ finish, addNode schema typeName types node lookahead = .done finish ∧
      finish = lookahead :=
    includes.succeeds (takesIn_self schema types lookahead) rfl
  obtain ⟨finish, run, rfl⟩ := again
  exact run

theorem each_addNode_echoes (possible : schema.possibleTypes typeName = .ok types)
    {seen short long : List FieldNode} (echoes : Echoes seen short long)
    {added : List FieldNode} (within : seen ⊆ added) {lookahead : Lookahead}
    (found : ofNodes schema typeName added = .ok lookahead) :
    Attempt.each (addNode schema typeName types) short lookahead =
      Attempt.each (addNode schema typeName types) long lookahead := by
  induction echoes generalizing added lookahead with
  | nil => rfl
  | @fresh seen short long node _ ih =>
      rw [Attempt.each, Attempt.each]
      cases ran : addNode schema typeName types node lookahead with
      | stopped => rfl
      | done next =>
          have foundNext : ofNodes schema typeName (added ++ [node]) = .ok next := by
            rw [ofNodes_eq_ok_of_possibleTypes possible] at found ⊢
            rw [Attempt.each_append, found]
            exact (Attempt.each_singleton _ _ _).trans ran
          refine ih ?_ foundNext
          exact List.cons_subset.mpr ⟨by simp, List.subset_append_of_subset_left _ within⟩
  | again member _ ih =>
      rw [ih within found, Attempt.each, addNode_again possible found (within member)]
      rfl

theorem ofNodes_eq_finished (possible : schema.possibleTypes typeName = .ok types)
    (nodes : List FieldNode) :
    ofNodes schema typeName nodes =
      (Attempt.each (addNode schema typeName types) nodes (ofTypes types)).finished := by
  rw [ofNodes, below, isLeaf_of_possibleTypes possible, possible]
  rfl

/-- Nodes that come again, and the names of fragments, do not matter. -/
theorem ofNodes_echoes (schema : Schema) (typeName : String) {short long : List FieldNode}
    (echoes : Echoes [] short long) :
    ofNodes schema typeName (long.map FieldNode.inlined) = ofNodes schema typeName short := by
  have inlined : ∀ candidates,
      Attempt.each (addNode schema typeName candidates) (long.map FieldNode.inlined) =
        Attempt.each (addNode schema typeName candidates) long := by
    intro candidates
    rw [Attempt.each_map, funext (addNode_inlined schema typeName candidates)]
  cases possible : schema.possibleTypes typeName with
  | error fault =>
      rw [ofNodes, ofNodes, below, below, possible]
      rfl
  | ok types =>
      have start : ofNodes schema typeName [] = .ok (ofTypes types) :=
        (ofNodes_eq_ok_of_possibleTypes possible).mpr rfl
      rw [ofNodes_eq_finished possible, ofNodes_eq_finished possible, inlined,
        each_addNode_echoes possible echoes (List.Subset.refl _) start]

end Lookahead
end FieldLookahead
