import FieldLookahead.Proofs.Fragment.Rearrangement
import FieldLookahead.Proofs.Lookahead.Completion

namespace FieldLookahead

open Fragment (Table FieldNode Occurrence)
open Query (Selection FieldLabel SameSelections Within within_iff_exists_twin)

/-! The order and repetition of selections do not decide what a lookahead requests, nor whether
there is one. -/

namespace Lookahead

variable {schema : Schema} {left right : Table}

theorem resolvesAll_of_within {below otherBelow : List Selection}
    (each : ∀ inner ∈ below, ∀ {other : Selection}, Selection.Same inner other →
      Resolves schema (left.unfoldOne inner) → Resolves schema (right.unfoldOne other))
    (back : Within otherBelow below)
    (resolves : ∀ inner ∈ left.unfold below, Resolves schema inner) :
    ∀ other ∈ right.unfold otherBelow, Resolves schema other := by
  rw [Table.unfold_eq_map, List.forall_mem_map] at resolves ⊢
  intro other member
  obtain ⟨inner, inside, same⟩ := within_iff_exists_twin.mp back other member
  exact each inner inside same.symm (resolves inner inside)

theorem resolves_of_same (tables : left.Same right) {selection other : Selection}
    (same : Selection.Same selection other)
    (resolves : Resolves schema (left.unfoldOne selection)) :
    Resolves schema (right.unfoldOne other) := by
  induction selection using left.induction generalizing other with
  | field label below _ =>
      cases same with
      | field => exact .field
  | inline condition? position below ih =>
      cases same with
      | inline _ back =>
          cases resolves with
          | bare inside => exact .bare (resolvesAll_of_within ih back inside)
          | conditioned possible inside =>
              exact .conditioned possible (resolvesAll_of_within ih back inside)
  | spread name position fragment found ih =>
      cases same with
      | spread =>
          obtain ⟨other, otherFound, condition, same⟩ := tables.exists_other found
          rw [Table.unfoldOne_spread, Table.unfoldNamed_found found] at resolves
          rw [Table.unfoldOne_spread, Table.unfoldNamed_found otherFound, condition]
          cases resolves with
          | spread possible inside =>
              exact .spread possible (resolvesAll_of_within ih same.back inside)
  | missing name position missing =>
      rw [Table.unfoldOne_spread, Table.unfoldNamed_missing missing] at resolves
      cases resolves

theorem below_ne_nil_of_same {node other : FieldNode}
    (same : FieldNode.Same left right node other) (selects : node.below ≠ []) :
    other.below ≠ [] := by
  obtain ⟨below, otherBelow, written, otherWritten, same⟩ := same.below
  rw [written, Table.unfold_eq_map, List.map_eq_nil_iff.ne] at selects
  rw [otherWritten, Table.unfold_eq_map, List.map_eq_nil_iff.ne]
  rintro rfl
  obtain ⟨first, member⟩ := List.exists_mem_of_ne_nil _ selects
  obtain ⟨_, impossible, _⟩ := within_iff_exists_twin.mp same.forth first member
  cases impossible

theorem Contributes.of_same {outside : List String} {occurrence twin : Occurrence}
    {request : Request} (same : Occurrence.Same left right occurrence twin)
    (contributes : Contributes schema outside occurrence (occurrence.node.label.key, request))
    (asked : ∀ typeName below, ofNodes schema typeName [occurrence.node] = .ok below →
      ∃ less, ofNodes schema typeName [twin.node] = .ok less ∧
        Lookahead.ContainedIn less below) :
    ∃ less, Contributes schema outside twin (twin.node.label.key, less) ∧
      Request.ContainedIn less request := by
  refine contributes.transfer ⟨below_ne_nil_of_same same.node, below_ne_nil_of_same same.node.symm⟩
    ?_ ?_ asked
  · rw [same.conditions]
  · rw [same.node.name]
    exact fun _ => rfl

theorem Includes.of_same {outside : List String} {large : Lookahead}
    {occurrence twin : Occurrence} {request less : Request}
    (includes : Includes schema outside large occurrence request)
    (same : Occurrence.Same left right occurrence twin)
    (within : Request.ContainedIn less request) : Includes schema outside large twin less := by
  refine includes.transfer same.node.key ?_ within
  rw [same.conditions]
  exact fun _ isCandidate => isCandidate

theorem AddableNode.of_same {outside : List String} {Fits : Occurrence → Request → Prop}
    (tables : left.Same right) {node other : FieldNode}
    (same : FieldNode.Same left right node other)
    (addable : AddableNode schema outside (fun _ _ => True) node)
    (contributed : ∀ occurrence ∈ node.reached, ∀ twin,
      Occurrence.Same left right occurrence twin → ∀ request,
        Contributes schema outside occurrence (occurrence.node.label.key, request) →
        ∃ less, Contributes schema outside twin (twin.node.label.key, less) ∧ Fits twin less) :
    AddableNode schema outside Fits other where
  selects := below_ne_nil_of_same same addable.selects
  resolves := by
    obtain ⟨below, otherBelow, written, otherWritten, same⟩ := same.below
    rw [otherWritten]
    refine resolvesAll_of_within (fun _ _ _ => resolves_of_same tables) same.back ?_
    exact written ▸ addable.resolves
  asks := by
    intro twin twinReached
    obtain ⟨occurrence, reached, same⟩ := tables.symm.reached_node same.symm twinReached
    have same := same.symm
    rcases addable.asks occurrence reached with none | ⟨request, contributes, _⟩
    · refine .inl ?_
      rw [same.conditions]
      exact none
    · exact .inr (contributed occurrence reached twin same request contributes)

theorem ofNodes_of_same (tables : left.Same right) {typeName : String}
    {nodes others : List FieldNode}
    (twins : ∀ other ∈ others, ∃ node ∈ nodes, FieldNode.Same left right node other)
    {lookahead : Lookahead} (found : ofNodes schema typeName nodes = .ok lookahead) :
    ∃ less, ofNodes schema typeName others = .ok less ∧
      Lookahead.ContainedIn less lookahead := by
  induction nodes using FieldNode.induction generalizing typeName others lookahead with
  | step nodes ih =>
      rcases ofNodes_eq_ok.mp found with ⟨leaf, rfl⟩ | ⟨_, types, possible, _⟩
      · exact ⟨[], ofNodes_eq_ok.mpr (.inl ⟨leaf, rfl⟩), trivial⟩
      · refine ofNodes_succeeds possible (takesIn_containedIn schema types lookahead) ?_
          (ofTypes_containedIn possible found)
        intro other otherMember
        obtain ⟨node, member, same⟩ := twins other otherMember
        refine AddableNode.of_same tables same (ofNodes_addable possible found node member) ?_
        intro occurrence reached twin same request contributes
        obtain ⟨less, contributesLess, within⟩ := contributes.of_same same
          fun typeName below asked => ih node member occurrence reached
            (by simpa using same.node) asked
        refine ⟨less, contributesLess, ?_⟩
        exact (ofNodes_includes possible found member reached contributes).of_same same within

theorem exists_same_node {fields others : List (FieldLabel × List Selection)}
    (within : Within (others.map Selection.ofField) (fields.map Selection.ofField)) :
    ∀ other ∈ others.map right.node, ∃ node ∈ fields.map left.node,
      FieldNode.Same left right node other := by
  rw [List.forall_mem_map]
  intro other member
  obtain ⟨twin, twinMember, same⟩ :=
    within_iff_exists_twin.mp within _ (List.mem_map_of_mem member)
  obtain ⟨field, fieldMember, rfl⟩ := List.mem_map.mp twinMember
  refine ⟨left.node field, List.mem_map_of_mem fieldMember, ?_⟩
  cases same with
  | field key name forth back => exact ⟨key.symm, name.symm, _, _, rfl, rfl, back, forth⟩

/-- Fields that select the same request the same of a type, if they request anything: neither
order nor repetition matters, at any depth and also inside fragments. -/
theorem ofNodes_rearranged (tables : left.Same right)
    {fields others : List (FieldLabel × List Selection)}
    (same : SameSelections (fields.map Selection.ofField) (others.map Selection.ofField))
    (typeName : String) :
    ((∃ found, ofNodes schema typeName (fields.map left.node) = .ok found) ↔
      ∃ found, ofNodes schema typeName (others.map right.node) = .ok found) ∧
    ∀ found other, ofNodes schema typeName (fields.map left.node) = .ok found →
      ofNodes schema typeName (others.map right.node) = .ok other →
      agrees found other = true := by
  have forth : ∀ {found}, ofNodes schema typeName (fields.map left.node) = .ok found → _ :=
    ofNodes_of_same tables (exists_same_node same.back)
  have back : ∀ {found}, ofNodes schema typeName (others.map right.node) = .ok found → _ :=
    ofNodes_of_same tables.symm (exists_same_node same.forth)
  refine ⟨⟨?_, ?_⟩, ?_⟩
  · rintro ⟨found, asked⟩
    obtain ⟨less, asked, _⟩ := forth asked
    exact ⟨less, asked⟩
  · rintro ⟨found, asked⟩
    obtain ⟨less, asked, _⟩ := back asked
    exact ⟨less, asked⟩
  · intro found other asked otherAsked
    obtain ⟨less, again, within⟩ := forth asked
    rw [otherAsked] at again
    cases again
    obtain ⟨less, again, alsoWithin⟩ := back otherAsked
    rw [asked] at again
    cases again
    exact agrees_of_containedIn (ofNodes_distinct asked) (ofNodes_distinct otherAsked)
      alsoWithin within

end Lookahead

def Fragment.Table.insistent : Table where
  collection := Fragment.Collection.empty.insert
    ⟨⟨"friendly", "Dog", ⟨1, 1⟩,
      [.field ⟨none, "friend", ⟨1, 1⟩⟩
        [.field ⟨none, "name", ⟨1, 1⟩⟩ [], .field ⟨none, "name", ⟨2, 1⟩⟩ []],
      .field ⟨none, "friend", ⟨3, 1⟩⟩ [.field ⟨none, "name", ⟨3, 1⟩⟩ []]]⟩, none⟩
  sound := by decide +kernel

theorem Fragment.Collection.get?_insert_empty (source : Fragment.Source) (name : String) :
    (Fragment.Collection.empty.insert source).get? name =
      if source.fragment.name = name then some source.fragment else none := by
  by_cases same : source.fragment.name = name <;>
    simp [Fragment.Collection.get?, Fragment.Collection.insert, Fragment.Collection.empty,
      OrderedMap.get?, Assoc.insert, Assoc.get?, same]

theorem Query.Selection.same_bare (name : String) (position other : Syntax.Position) :
    Same (.field ⟨none, name, position⟩ []) (.field ⟨none, name, other⟩ []) :=
  .field rfl rfl .nil .nil

theorem Fragment.Table.same_insistent : friendly.Same insistent where
  names name := by
    rw [get?, get?, friendly, insistent, Collection.get?_insert_empty,
      Collection.get?_insert_empty]
    split <;> rfl
  fragments name fragment other found otherFound := by
    rw [get?, friendly, Collection.get?_insert_empty] at found
    rw [get?, insistent, Collection.get?_insert_empty] at otherFound
    split at found
    · next named =>
      cases found
      rw [if_pos named] at otherFound
      cases otherFound
      have same := Selection.same_bare "name"
      let bare (name : String) (position : Syntax.Position) : Selection :=
        .field ⟨none, name, position⟩ []
      have once : Selection.Same (.field ⟨none, "friend", ⟨1, 1⟩⟩ [bare "name" ⟨1, 1⟩])
          (.field ⟨none, "friend", ⟨3, 1⟩⟩ [bare "name" ⟨3, 1⟩]) :=
        .field rfl rfl (.cons (.head _) (same ⟨1, 1⟩ ⟨3, 1⟩) .nil)
          (.cons (.head _) (same ⟨3, 1⟩ ⟨1, 1⟩) .nil)
      have twice : Selection.Same (.field ⟨none, "friend", ⟨1, 1⟩⟩ [bare "name" ⟨1, 1⟩])
          (.field ⟨none, "friend", ⟨1, 1⟩⟩ [bare "name" ⟨1, 1⟩, bare "name" ⟨2, 1⟩]) :=
        .field rfl rfl (.cons (.head _) (same ⟨1, 1⟩ ⟨1, 1⟩) .nil)
          (.cons (.head _) (same ⟨1, 1⟩ ⟨1, 1⟩) (.cons (.head _) (same ⟨2, 1⟩ ⟨1, 1⟩) .nil))
      exact ⟨rfl, .cons (.head _) twice .nil,
        .cons (.head _) twice.symm (.cons (.head _) once.symm .nil)⟩
    · cases found

namespace Lookahead

def shuffledSelections : List Selection :=
  [.spread "friendly" ⟨1, 1⟩, .field ⟨none, "name", ⟨1, 1⟩⟩ [], .spread "friendly" ⟨2, 1⟩]

theorem same_shuffledSelections : SameSelections petSelections shuffledSelections where
  forth := .cons (.tail _ (.head _)) (Selection.same_bare _ _ _) (.cons (.head _) .spread .nil)
  back := .cons (.tail _ (.head _)) .spread (.cons (.head _) (Selection.same_bare _ _ _)
    (.cons (.tail _ (.head _)) .spread .nil))

def petFields : List (FieldLabel × List Selection) :=
  [(⟨none, "pet", ⟨1, 1⟩⟩, petSelections)]

def shuffledFields : List (FieldLabel × List Selection) :=
  [(⟨none, "pet", ⟨1, 1⟩⟩, shuffledSelections), (⟨none, "pet", ⟨2, 1⟩⟩, shuffledSelections)]

theorem same_shuffledFields :
    SameSelections (petFields.map Selection.ofField) (shuffledFields.map Selection.ofField) := by
  obtain ⟨forth, back⟩ := same_shuffledSelections
  exact ⟨.cons (.head _) (.field rfl rfl forth back) .nil,
    .cons (.head _) (.field rfl rfl back forth) (.cons (.head _) (.field rfl rfl back forth) .nil)⟩

theorem ofNodes_rearranged_of_pets :
    Table.friendly.Same .insistent ∧
      SameSelections (petFields.map Selection.ofField) (shuffledFields.map Selection.ofField) ∧
      ((∃ found, ofNodes .pets "Pet" (petFields.map Table.friendly.node) = .ok found) ↔
        ∃ found, ofNodes .pets "Pet" (shuffledFields.map Table.insistent.node) = .ok found) ∧
      ∀ found other, ofNodes .pets "Pet" (petFields.map Table.friendly.node) = .ok found →
        ofNodes .pets "Pet" (shuffledFields.map Table.insistent.node) = .ok other →
        agrees found other = true :=
  ⟨Table.same_insistent, same_shuffledFields,
    ofNodes_rearranged Table.same_insistent same_shuffledFields "Pet"⟩

end Lookahead
end FieldLookahead
