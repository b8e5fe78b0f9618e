import FieldLookahead.Proofs.Lookahead.Reordering
import FieldLookahead.Proofs.Plan.PositionTree

namespace FieldLookahead.Plan

open Fragment (Unfolded FieldNode)

/-! Plans for type definitions in another order. Which fields an object type answers does not
depend on the order; the object types of a field are followed in another order, to the same
positions. -/

variable {schema other : Schema} {object key : String} {selectionSets : List (List Unfolded)}
  {position : Position} {entry : Entry}

theorem meets_eq (same : schema.SameTypes other) (object condition : String) :
    meets schema object condition = meets other object condition := by
  rw [meets, meets, (same.possibleTypes condition).map_eq fun _ _ inner => inner.perm.contains_eq]

theorem gatherSelections_eq_of {below : List Unfolded}
    (each : ∀ inner ∈ below, gatherSelection schema object inner =
      gatherSelection other object inner) :
    gatherSelections schema object below = gatherSelections other object below := by
  funext gathering
  induction below generalizing gathering with
  | nil => rfl
  | cons inner rest ih =>
      obtain ⟨here, others⟩ := List.forall_mem_cons.mp each
      rw [gatherSelections, gatherSelections, here]
      exact bind_congr fun next => ih others next

theorem gatherSelection_eq (same : schema.SameTypes other) (object : String)
    (selection : Unfolded) :
    gatherSelection schema object selection = gatherSelection other object selection := by
  funext gathering
  induction selection using Unfolded.induction generalizing gathering with
  | field label below _ => rfl
  | inline condition? below ih =>
      have inside := gatherSelections_eq_of fun inner member => funext (ih inner member)
      cases condition? with
      | none => exact congrFun inside gathering
      | some condition => rw [gatherSelection, gatherSelection, meets_eq same, inside]
  | spread name condition below ih =>
      have inside := gatherSelections_eq_of fun inner member => funext (ih inner member)
      rw [gatherSelection, gatherSelection, meets_eq same, inside]
  | unknown name => rfl

theorem groups_eq (same : schema.SameTypes other) (object : String)
    (selectionSets : List (List Unfolded)) :
    groups schema object selectionSets = groups other object selectionSets := by
  have gathers : gatherSelections schema object = gatherSelections other object :=
    funext fun _ => gatherSelections_eq_of fun inner _ => gatherSelection_eq same object inner
  rw [groups, groups, gathers]

theorem objectsOf_alike (same : schema.SameTypes other) (typeName : String) :
    Alike List.Perm (objectsOf schema typeName) (objectsOf other typeName) := by
  rw [objectsOf, objectsOf, same.isLeaf_eq]
  refine Alike.bind_same fun leaf _ => ?_
  cases leaf with
  | true => exact .ok (.refl _)
  | false =>
      refine (same.possibleTypes typeName).bind fun types others _ _ inner => .ok ?_
      rw [funext same.types.isObject]
      exact inner.perm.filter _

/-- Entries that know the same, up to the order of what is requested. -/
structure Entry.Agrees (entry twin : Entry) : Prop where
  parent : twin.parent = entry.parent
  field : twin.field = entry.field
  type : twin.type = entry.type
  nodes : twin.nodes = entry.nodes
  lookahead : entry.lookahead.agrees twin.lookahead = true

theorem Entry.Agrees.selectionSets_eq {twin : Entry} (agrees : entry.Agrees twin) :
    twin.selectionSets = entry.selectionSets := by
  rw [Entry.selectionSets, Entry.selectionSets, agrees.nodes]

theorem Entry.ofNodes_of_sameTypes (same : schema.SameTypes other) {parent field : String}
    {type : Schema.TypeReference} {nodes : List FieldNode}
    (made : Entry.ofNodes schema parent field type nodes = .ok entry) :
    ∃ twin, Entry.ofNodes other parent field type nodes = .ok twin ∧ entry.Agrees twin := by
  rw [Entry.ofNodes, same.field_eq, same.referenced_eq] at made
  obtain ⟨declared, told, made⟩ := bind_eq_ok.mp made
  obtain ⟨typeName, referenced, made⟩ := bind_eq_ok.mp made
  obtain ⟨lookahead, asked, known⟩ := bind_eq_ok.mp made
  cases known
  obtain ⟨twin, asked, agree⟩ := Lookahead.ofNodes_agree same asked
  refine ⟨⟨parent, field, type, nodes, twin⟩, ?_, rfl, rfl, rfl, rfl, agree⟩
  exact bind_eq_ok.mpr ⟨declared, told, bind_eq_ok.mpr ⟨typeName, referenced,
    bind_eq_ok.mpr ⟨twin, asked, rfl⟩⟩⟩

theorem entryOfGroup_of_sameTypes (same : schema.SameTypes other) {nodes : List FieldNode}
    (known : entryOfGroup? schema object nodes = .ok (some entry)) :
    ∃ twin, entryOfGroup? other object nodes = .ok (some twin) ∧ entry.Agrees twin := by
  cases nodes with
  | nil => cases known
  | cons first others =>
      rw [entryOfGroup?, same.field_eq] at known
      obtain ⟨field, declared, known⟩ := bind_eq_ok.mp known
      obtain ⟨_, made, some⟩ := bind_eq_ok.mp known
      cases some
      obtain ⟨twin, made, agrees⟩ := Entry.ofNodes_of_sameTypes same made
      refine ⟨twin, ?_, agrees⟩
      exact bind_eq_ok.mpr ⟨field, declared, bind_eq_ok.mpr ⟨twin, made, rfl⟩⟩

theorem Selected.of_sameTypes (same : schema.SameTypes other)
    (selected : Selected schema object selectionSets key entry) :
    ∃ twin, Selected other object selectionSets key twin ∧ entry.Agrees twin := by
  obtain ⟨found, nodes, gathered, member, known⟩ := selected
  rw [groups_eq same] at gathered
  obtain ⟨twin, knownTwin, agrees⟩ := entryOfGroup_of_sameTypes same known
  exact ⟨twin, ⟨found, nodes, gathered, member, knownTwin⟩, agrees⟩

theorem Visited.of_sameTypes (same : schema.SameTypes other)
    (visited : Visited schema object selectionSets position entry) :
    ∃ twin, Visited other object selectionSets position twin ∧ entry.Agrees twin := by
  induction visited with
  | here selected =>
      obtain ⟨twin, selected, agrees⟩ := selected.of_sameTypes same
      exact ⟨twin, .here selected, agrees⟩
  | under selected followed member _ ih =>
      obtain ⟨above, selected, agreesAbove⟩ := selected.of_sameTypes same
      obtain ⟨objects, followed, perm⟩ := (objectsOf_alike same _).exists_right followed
      obtain ⟨twin, inside, agrees⟩ := ih
      rw [← agreesAbove.type] at followed
      rw [← agreesAbove.selectionSets_eq] at inside
      exact ⟨twin, .under selected followed (perm.mem_iff.mp member) inside, agrees⟩

theorem visitsOfGroup_of_sameTypes (same : schema.SameTypes other) {depth : Nat}
    {above : Position} {group : String × List FieldNode} {part : List (Position × Entry)}
    (filled : group.2 ≠ []) (found : visitsOfGroup schema depth above object group = .ok part)
    (walks : ∀ {above : Position} {object : String} {selectionSets : List (List Unfolded)}
      {visits : List (Position × Entry)},
      positionsBelow schema depth above object selectionSets = .ok visits →
        ∃ others, positionsBelow other depth above object selectionSets = .ok others) :
    ∃ part, visitsOfGroup other depth above object group = .ok part := by
  obtain ⟨entry, objects, inner, groupVisits⟩ := visitsOfGroup_eq_ok filled found
  obtain ⟨twin, known, agrees⟩ := entryOfGroup_of_sameTypes same groupVisits.known
  obtain ⟨others, followed, perm⟩ :=
    (objectsOf_alike same _).exists_right groupVisits.followed
  obtain ⟨inner, walked⟩ := mapM_succeeds fun next member => by
    obtain ⟨visits, _, walked⟩ :=
      exists_of_forall₂_left groupVisits.walked (perm.mem_iff.mpr member)
    exact walks walked
  rw [← agrees.type] at followed
  rw [← agrees.selectionSets_eq, Entry.selectionSets, (isEntryOf_of_known known).nodes_eq] at walked
  exact ⟨_, bind_eq_ok.mpr ⟨some twin, known, bind_eq_ok.mpr ⟨others,
    mapError_eq_ok.mpr followed, bind_eq_ok.mpr ⟨inner, walked, rfl⟩⟩⟩⟩

theorem positionsBelow_of_sameTypes (same : schema.SameTypes other) (depth : Nat)
    {above : Position} {object : String} {selectionSets : List (List Unfolded)}
    {visits : List (Position × Entry)}
    (walked : positionsBelow schema depth above object selectionSets = .ok visits) :
    ∃ others, positionsBelow other depth above object selectionSets = .ok others := by
  induction depth generalizing above object selectionSets visits with
  | zero => exact ⟨[], rfl⟩
  | succ depth ih =>
      obtain ⟨found, parts, gathered, made, _⟩ := positionsBelow_succ_eq_ok.mp walked
      have each : ∀ group ∈ found, ∃ part, visitsOfGroup other depth above object group =
          .ok part := by
        intro group member
        obtain ⟨part, _, visited⟩ := exists_of_forall₂_left made member
        have filled := (groups_gatheredFrom gathered).filled group member
        exact visitsOfGroup_of_sameTypes same filled visited ih
      obtain ⟨parts, made⟩ := mapM_succeeds each
      rw [groups_eq same] at gathered
      exact ⟨_, positionsBelow_succ_eq_ok.mpr ⟨found, parts, gathered, mapM_eq_ok.mp made, rfl⟩⟩

/-- Each visit has a visit of the same position on the other side that finds the same. -/
def Covered (visits others : List (Position × Entry)) : Prop :=
  ∀ visit ∈ visits, ∃ twin ∈ others, twin.1 = visit.1 ∧ visit.2.Agrees twin.2

/-- Plans of one operation that visit the same positions, in whatever order, and find the same
there. -/
structure Agrees (plan twin : Plan) : Prop where
  operation : twin.operation = plan.operation
  fragments : twin.fragments = plan.fragments
  root : twin.root = plan.root
  forth : Covered plan.visits twin.visits
  back : Covered twin.visits plan.visits

section Made

variable {document : Query.Document} {name? : Option String} {plan twin : Plan}

theorem exists_ofDocument_of_sameTypes (same : schema.SameTypes other)
    (made : ofDocument schema document name? = .ok plan) :
    ∃ twin, ofDocument other document name? = .ok twin := by
  obtain ⟨chosen, built⟩ := sources_of_ofDocument made
  have rooted := root?_of_ofDocument made
  rw [same.roots] at rooted
  obtain ⟨visits, walked⟩ := positionsBelow_of_sameTypes same _ (positions_of_ofDocument made)
  rw [ofDocument_eq other chosen built, rooted]
  exact ⟨_, bind_eq_ok.mpr ⟨visits, mapError_eq_ok.mpr walked, rfl⟩⟩

theorem agrees_of_sameTypes (same : schema.SameTypes other)
    (made : ofDocument schema document name? = .ok plan)
    (madeTwin : ofDocument other document name? = .ok twin) : plan.Agrees twin := by
  obtain ⟨chosen, built⟩ := sources_of_ofDocument made
  obtain ⟨chosenTwin, builtTwin⟩ := sources_of_ofDocument madeTwin
  have operation : twin.operation = plan.operation :=
    Except.ok.inj (chosenTwin.symm.trans chosen)
  have fragments : twin.fragments = plan.fragments :=
    Except.ok.inj (builtTwin.symm.trans built)
  have root : twin.root = plan.root := by
    have rooted := root?_of_ofDocument madeTwin
    rw [operation, ← same.roots, root?_of_ofDocument made] at rooted
    exact (Option.some.inj rooted).symm
  refine ⟨operation, fragments, root, ?_, ?_⟩
  · rintro ⟨position, entry⟩ member
    obtain ⟨answer, visited, agrees⟩ := ((mem_visits_iff made).mp member).of_sameTypes same
    rw [← operation, ← fragments, ← root] at visited
    exact ⟨(position, answer), (mem_visits_iff madeTwin).mpr visited, rfl, agrees⟩
  · rintro ⟨position, entry⟩ member
    obtain ⟨answer, visited, agrees⟩ :=
      ((mem_visits_iff madeTwin).mp member).of_sameTypes same.symm
    rw [operation, fragments, root] at visited
    exact ⟨(position, answer), (mem_visits_iff made).mpr visited, rfl, agrees⟩

theorem get?_entries_eq_some (built : schema.Built)
    (typesPlain : ∀ type ∈ schema.types.types, Plain type.name)
    (keysPlain : ∀ label ∈ plan.labels, Plain label.key)
    (made : ofDocument schema document name? = .ok plan) {text : String} :
    plan.entries.get? text = some entry ↔
      ∃ position, (position, entry) ∈ plan.visits ∧ position.text = text := by
  rw [OrderedMap.get?_eq_some, plan.entries_eq, entriesOf, OrderedMap.entries_ofList]
  · simp
  · rw [Assoc.keys, List.map_map]
    exact nodup_texts built typesPlain keysPlain made

theorem Agrees.get?_entries (agrees : plan.Agrees twin) (same : schema.SameTypes other)
    (built : schema.Built) (builtOther : other.Built)
    (typesPlain : ∀ type ∈ schema.types.types, Plain type.name)
    (keysPlain : ∀ label ∈ plan.labels, Plain label.key)
    (made : ofDocument schema document name? = .ok plan)
    (madeTwin : ofDocument other document name? = .ok twin) (text : String) :
    Option.Rel Entry.Agrees (plan.entries.get? text) (twin.entries.get? text) := by
  have typesPlainTwin : ∀ type ∈ other.types.types, Plain type.name :=
    fun type known => typesPlain type (same.symm.types.mem_types known)
  have keysPlainTwin : ∀ label ∈ twin.labels, Plain label.key := by
    rw [labels, agrees.operation, agrees.fragments]
    exact keysPlain
  have filed : ∀ entry, plan.entries.get? text = some entry ↔
      ∃ position, (position, entry) ∈ plan.visits ∧ position.text = text :=
    fun _ => get?_entries_eq_some built typesPlain keysPlain made
  have filedTwin : ∀ answer, twin.entries.get? text = some answer ↔
      ∃ position, (position, answer) ∈ twin.visits ∧ position.text = text :=
    fun _ => get?_entries_eq_some builtOther typesPlainTwin keysPlainTwin madeTwin
  cases found : plan.entries.get? text with
  | some entry =>
      obtain ⟨position, member, named⟩ := (filed _).mp found
      obtain ⟨⟨_, answer⟩, inside, rfl, agree⟩ := agrees.forth _ member
      rw [(filedTwin _).mpr ⟨_, inside, named⟩]
      exact .some agree
  | none =>
      cases foundTwin : twin.entries.get? text with
      | none => exact .none
      | some answer =>
          obtain ⟨position, member, named⟩ := (filedTwin _).mp foundTwin
          obtain ⟨⟨_, entry⟩, inside, rfl, _⟩ := agrees.back _ member
          rw [(filed _).mpr ⟨_, inside, named⟩] at found
          cases found

end Made

/-- Type definitions in another order make a schema if they do in the first order. It has the same
types, root types and implementing object types, and any document has a plan for it if it has one
for the first: the plans visit the same positions and find the same there. -/
theorem reordered_agree {definitions others : List (Option String × Sdl.Document)}
    (reordered : Schema.Reordered definitions others) :
    ((∃ schema, Schema.ofDocuments definitions = .ok schema) ↔
      ∃ other, Schema.ofDocuments others = .ok other) ∧
    ∀ schema other, Schema.ofDocuments definitions = .ok schema →
      Schema.ofDocuments others = .ok other →
      schema.SameTypes other ∧
      (∀ interface, (schema.implementers interface).Perm (other.implementers interface)) ∧
      ∀ document name?,
        ((∃ plan, ofDocument schema document name? = .ok plan) ↔
          ∃ twin, ofDocument other document name? = .ok twin) ∧
        ∀ plan twin, ofDocument schema document name? = .ok plan →
          ofDocument other document name? = .ok twin →
          plan.Agrees twin ∧
          ((∀ type ∈ schema.types.types, Plain type.name) →
            (∀ label ∈ plan.labels, Plain label.key) →
            ∀ text, Option.Rel Entry.Agrees (plan.entries.get? text) (twin.entries.get? text)) := by
  refine ⟨⟨?_, ?_⟩, fun schema other made madeOther => ?_⟩
  · rintro ⟨schema, made⟩
    obtain ⟨other, madeOther, _⟩ := Schema.ofDocuments_of_reordered reordered made
    exact ⟨other, madeOther⟩
  · rintro ⟨other, madeOther⟩
    obtain ⟨schema, made, _⟩ := Schema.ofDocuments_of_reordered reordered.symm madeOther
    exact ⟨schema, made⟩
  · obtain ⟨_, again, same⟩ := Schema.ofDocuments_of_reordered reordered made
    rw [madeOther] at again
    cases again
    refine ⟨same, same.implementers_perm, fun document name? => ⟨⟨?_, ?_⟩, ?_⟩⟩
    · rintro ⟨plan, made⟩
      exact exists_ofDocument_of_sameTypes same made
    · rintro ⟨twin, made⟩
      exact exists_ofDocument_of_sameTypes same.symm made
    · intro plan twin madePlan madeTwin
      have agrees := agrees_of_sameTypes same madePlan madeTwin
      refine ⟨agrees, fun typesPlain keysPlain => ?_⟩
      exact agrees.get?_entries same ⟨_, Schema.ofDocuments_eq_ok.mp made⟩
        ⟨_, Schema.ofDocuments_eq_ok.mp madeOther⟩ typesPlain keysPlain madePlan madeTwin

def petSources : List (Option String × Sdl.Document) := [(none, Schema.petDefinitions)]

def reversedPetSources : List (Option String × Sdl.Document) :=
  [(none, Schema.petDefinitions.reverse)]

theorem reordered_petSources : Schema.Reordered petSources reversedPetSources where
  types := (List.reverse_perm _).symm
  rest := rfl

theorem ofDocuments_petSources : Schema.ofDocuments petSources = .ok .pets := rfl

theorem implementers_reversedPetSources :
    (Schema.ofDocuments reversedPetSources).map (·.implementers "Pet") = .ok ["Cat", "Dog"] :=
  rfl

theorem reordered_agree_of_pets :
    Schema.Reordered petSources reversedPetSources ∧
      Schema.pets.implementers "Pet" = ["Dog", "Cat"] ∧
      ∃ other twin, Schema.ofDocuments reversedPetSources = .ok other ∧
        other.implementers "Pet" = ["Cat", "Dog"] ∧
        ofDocument other petDocument none = .ok twin ∧ petPlan.Agrees twin ∧
        ∀ text, Option.Rel Entry.Agrees (petPlan.entries.get? text) (twin.entries.get? text) := by
  obtain ⟨builds, agree⟩ := reordered_agree reordered_petSources
  obtain ⟨other, made⟩ := builds.mp ⟨_, ofDocuments_petSources⟩
  obtain ⟨_, _, plans⟩ := agree _ other ofDocuments_petSources made
  obtain ⟨planned, agree⟩ := plans petDocument none
  obtain ⟨twin, madeTwin⟩ := planned.mp ⟨petPlan, ofDocument_pets⟩
  obtain ⟨agrees, entries⟩ := agree petPlan twin ofDocument_pets madeTwin
  have listed := implementers_reversedPetSources
  rw [made] at listed
  exact ⟨reordered_petSources, rfl, other, twin, made, Except.ok.inj listed, madeTwin, agrees,
    entries (by decide) (by decide)⟩

end FieldLookahead.Plan
