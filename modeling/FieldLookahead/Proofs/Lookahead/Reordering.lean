import FieldLookahead.Proofs.Lookahead.Completion
import FieldLookahead.Proofs.Schema.Reordering

namespace FieldLookahead.Lookahead

open Fragment (Unfolded FieldNode Occurrence)
open Schema (SameCandidates)

/-! The order of types does not decide what a lookahead requests, nor whether there is one. The
candidates of a field come in another order, but the first of them, which tells the type of the
field, stays the first. -/

variable {schema other : Schema} {types others : List String}

theorem candidatesAfter_of_sameTypes (same : schema.SameTypes other)
    (outside : SameCandidates types others) (conditions : List String) :
    SameCandidates (candidatesAfter schema types conditions)
      (candidatesAfter other others conditions) := by
  cases conditions with
  | nil => exact outside
  | cons condition _ =>
      have alike := same.possibleTypes condition
      rw [candidatesAfter, candidatesAfter]
      generalize schema.possibleTypes condition = found, other.possibleTypes condition = answer
        at alike
      cases alike with
      | ok inner => exact inner
      | error => exact ⟨rfl, .refl _⟩

theorem Resolves.of_sameTypes (same : schema.SameTypes other) {selection : Unfolded}
    (resolves : Resolves schema selection) : Resolves other selection := by
  induction resolves with
  | field => exact .field
  | bare _ ih => exact .bare ih
  | conditioned possible _ ih =>
      obtain ⟨_, possible, _⟩ := (same.possibleTypes _).exists_right possible
      exact .conditioned possible ih
  | spread possible _ ih =>
      obtain ⟨_, possible, _⟩ := (same.possibleTypes _).exists_right possible
      exact .spread possible ih

theorem AddableNode.of_sameTypes {Fits : Occurrence → Request → Prop}
    (same : schema.SameTypes other) (outside : SameCandidates types others) {node : FieldNode}
    (addable : AddableNode schema types (fun _ _ => True) node)
    (contributed : ∀ occurrence ∈ node.reached, ∀ request,
      Contributes schema types occurrence (occurrence.node.label.key, request) →
        ∃ less, Contributes other others occurrence (occurrence.node.label.key, less) ∧
          Fits occurrence less) :
    AddableNode other others Fits node where
  selects := addable.selects
  resolves selection member := (addable.resolves selection member).of_sameTypes same
  asks := by
    intro occurrence reached
    rcases addable.asks occurrence reached with none | ⟨request, contributes, _⟩
    · have perm := (candidatesAfter_of_sameTypes same outside occurrence.conditions).perm
      rw [none] at perm
      exact .inl perm.nil_eq.symm
    · exact .inr (contributed occurrence reached request contributes)

theorem ofNodes_of_sameTypes (same : schema.SameTypes other) {typeName : String}
    {nodes : List FieldNode} {lookahead : Lookahead}
    (found : ofNodes schema typeName nodes = .ok lookahead) :
    ∃ less, ofNodes other typeName nodes = .ok less ∧ Lookahead.ContainedIn less lookahead := by
  induction nodes using FieldNode.induction generalizing typeName lookahead with
  | step nodes ih =>
      rcases ofNodes_eq_ok.mp found with ⟨leaf, rfl⟩ | ⟨_, types, possible, _⟩
      · rw [same.isLeaf_eq] at leaf
        exact ⟨[], ofNodes_eq_ok.mpr (.inl ⟨leaf, rfl⟩), trivial⟩
      · obtain ⟨others, possibleOther, outside⟩ :=
          (same.possibleTypes typeName).exists_right possible
        refine ofNodes_succeeds possibleOther (takesIn_containedIn other others lookahead) ?_ ?_
        · intro node member
          refine (ofNodes_addable possible found node member).of_sameTypes same outside ?_
          intro occurrence reached request contributes
          have candidates := candidatesAfter_of_sameTypes same outside occurrence.conditions
          obtain ⟨less, contributesLess, within⟩ := contributes.transfer Iff.rfl candidates.first
            (same.fieldType_eq · _) fun _ _ asked => ih node member occurrence reached asked
          refine ⟨less, contributesLess, ?_⟩
          exact (ofNodes_includes possible found member reached contributes).transfer rfl
            candidates.perm.symm.subset within
        · have contained := ofTypes_containedIn_iff.mp (ofTypes_containedIn possible found)
          exact ofTypes_containedIn_iff.mpr fun typeName member =>
            contained typeName (outside.perm.mem_iff.mpr member)

/-- Nodes request the same of a type in whatever order the types come. -/
theorem ofNodes_agree (same : schema.SameTypes other) {typeName : String} {nodes : List FieldNode}
    {lookahead : Lookahead} (found : ofNodes schema typeName nodes = .ok lookahead) :
    ∃ twin, ofNodes other typeName nodes = .ok twin ∧ agrees lookahead twin = true := by
  obtain ⟨twin, foundTwin, within⟩ := ofNodes_of_sameTypes same found
  obtain ⟨_, again, above⟩ := ofNodes_of_sameTypes same.symm foundTwin
  rw [found] at again
  cases again
  exact ⟨twin, foundTwin,
    agrees_of_containedIn (ofNodes_distinct found) (ofNodes_distinct foundTwin) above within⟩

end FieldLookahead.Lookahead
