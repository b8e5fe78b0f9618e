import FieldLookahead.Plan.Basic
import FieldLookahead.Proofs.Lookahead.Contents
import FieldLookahead.Proofs.Plan.Traversal

namespace FieldLookahead.Plan

open Fragment (Unfolded FieldNode Occurrence)

/-! The positions of a plan, without the depth to which they are followed: each comes from a group
of an object type, and the object types of its own type are followed below it. -/

theorem referenced_eq_ok {schema : Schema} {reference : Schema.TypeReference}
    {typeName : String} (found : schema.referenced reference = .ok typeName) :
    typeName = reference.typeName := by
  obtain ⟨_, _, same⟩ := map_eq_ok.mp found
  exact same.symm

theorem objectsOf_eq {schema : Schema} {typeName : String} {types : List String}
    (possible : schema.possibleTypes typeName = .ok types) :
    objectsOf schema typeName = .ok (types.filter schema.types.isObject) := by
  rw [objectsOf, Lookahead.isLeaf_of_possibleTypes possible, possible]
  rfl

/-- What an entry of a group knows: its first node tells the field, and the lookahead is that of
all its nodes. -/
structure IsEntryOf (schema : Schema) (object : String) (nodes : List FieldNode)
    (entry : Entry) : Prop where
  parent_eq : entry.parent = object
  nodes_eq : entry.nodes = nodes
  first : ∃ first others, nodes = first :: others ∧ entry.field = first.label.name
  declared : ∃ field, schema.field object entry.field = .ok field ∧ entry.type = field.type
  lookahead : Lookahead.ofNodes schema entry.type.typeName nodes = .ok entry.lookahead

theorem isEntryOf_of_known {schema : Schema} {object : String} {nodes : List FieldNode}
    {entry : Entry} (found : entryOfGroup? schema object nodes = .ok (some entry)) :
    IsEntryOf schema object nodes entry := by
  cases nodes with
  | nil => cases found
  | cons first others =>
      rw [entryOfGroup?] at found
      obtain ⟨field, declared, found⟩ := bind_eq_ok.mp found
      obtain ⟨made, entryOf, same⟩ := bind_eq_ok.mp found
      cases same
      rw [Entry.ofNodes] at entryOf
      obtain ⟨_, _, entryOf⟩ := bind_eq_ok.mp entryOf
      obtain ⟨typeName, referenced, entryOf⟩ := bind_eq_ok.mp entryOf
      obtain ⟨lookahead, looked, same⟩ := bind_eq_ok.mp entryOf
      cases same
      rw [referenced_eq_ok (mapError_eq_ok.mp referenced)] at looked
      exact ⟨rfl, rfl, ⟨first, others, rfl, rfl⟩, ⟨field, mapError_eq_ok.mp declared, rfl⟩,
        looked⟩

theorem known_ne_none {schema : Schema} {object : String} {nodes : List FieldNode}
    (filled : nodes ≠ []) : entryOfGroup? schema object nodes ≠ .ok none := by
  intro found
  cases nodes with
  | nil => exact filled rfl
  | cons first others =>
      rw [entryOfGroup?] at found
      obtain ⟨_, _, found⟩ := bind_eq_ok.mp found
      obtain ⟨_, _, same⟩ := bind_eq_ok.mp found
      cases same

theorem unfolds_of_group {schema : Schema} {object : String} {table : Fragment.Table}
    {selectionSets : List (List Unfolded)} {found : Groups}
    (unfolds : ∀ selections ∈ selectionSets, table.Unfolds selections)
    (gathered : groups schema object selectionSets = .ok found)
    {group : String × List FieldNode} (member : group ∈ found) :
    ∀ selections ∈ group.2.map (·.below), table.Unfolds selections := by
  rw [List.forall_mem_map]
  intro node inside
  obtain ⟨_, reached, rfl, _⟩ := (groups_gatheredFrom gathered).origin group member node inside
  obtain ⟨selections, outer, reached⟩ := List.mem_flatMap.mp reached
  exact (unfolds selections outer).reached reached

/-- An object type answers a key of some selection sets, and this is what is known of the field. -/
def Selected (schema : Schema) (object : String) (selectionSets : List (List Unfolded))
    (key : String) (entry : Entry) : Prop :=
  ∃ found nodes, groups schema object selectionSets = .ok found ∧ (key, nodes) ∈ found ∧
    entryOfGroup? schema object nodes = .ok (some entry)

def Entry.selectionSets (entry : Entry) : List (List Unfolded) :=
  entry.nodes.map (·.below)

namespace Selected

variable {schema : Schema} {object key : String} {selectionSets : List (List Unfolded)}
  {entry : Entry}

theorem unique {other : Entry} (selected : Selected schema object selectionSets key entry)
    (again : Selected schema object selectionSets key other) : entry = other := by
  obtain ⟨found, nodes, gathered, member, known⟩ := selected
  obtain ⟨found', nodes', gathered', member', known'⟩ := again
  rw [gathered] at gathered'
  cases gathered'
  have distinct := (groups_gatheredFrom gathered).distinct
  have same : some nodes = some nodes' :=
    (Assoc.get?_of_mem distinct member).symm.trans (Assoc.get?_of_mem distinct member')
  cases same
  rw [known] at known'
  cases known'
  rfl

theorem isEntryOf (selected : Selected schema object selectionSets key entry) :
    IsEntryOf schema object entry.nodes entry := by
  obtain ⟨_, nodes, _, _, known⟩ := selected
  have isEntry := isEntryOf_of_known known
  rw [isEntry.nodes_eq]
  exact isEntry

theorem node (selected : Selected schema object selectionSets key entry) :
    ∀ node ∈ entry.nodes, node.label.key = key ∧
      ∃ occurrence ∈ selectionSets.flatMap (Unfolded.reachedAll []),
        occurrence.node = node ∧ AppliesTo schema object occurrence := by
  obtain ⟨found, nodes, gathered, member, known⟩ := selected
  have gatheredFrom := groups_gatheredFrom gathered
  intro node inside
  rw [(isEntryOf_of_known known).nodes_eq] at inside
  exact ⟨gatheredFrom.keyed _ member node inside, gatheredFrom.origin _ member node inside⟩

theorem nodes_ne_nil (selected : Selected schema object selectionSets key entry) :
    entry.nodes ≠ [] := by
  obtain ⟨found, nodes, gathered, member, known⟩ := selected
  rw [(isEntryOf_of_known known).nodes_eq]
  exact (groups_gatheredFrom gathered).filled _ member

theorem selectionSets_ne_nil (selected : Selected schema object selectionSets key entry) :
    selectionSets ≠ [] := by
  rintro rfl
  obtain ⟨node, inside⟩ := List.exists_mem_of_ne_nil _ selected.nodes_ne_nil
  obtain ⟨_, _, reached, _⟩ := selected.node node inside
  cases reached

theorem unfolds {table : Fragment.Table}
    (selected : Selected schema object selectionSets key entry)
    (unfolds : ∀ selections ∈ selectionSets, table.Unfolds selections) :
    ∀ selections ∈ entry.selectionSets, table.Unfolds selections := by
  obtain ⟨found, nodes, gathered, member, known⟩ := selected
  rw [Entry.selectionSets, (isEntryOf_of_known known).nodes_eq]
  exact unfolds_of_group unfolds gathered member

theorem height {depth : Nat} (selected : Selected schema object selectionSets key entry)
    (low : ∀ selections ∈ selectionSets, Unfolded.heightOfAll selections < depth + 1) :
    ∀ selections ∈ entry.selectionSets, Unfolded.heightOfAll selections < depth := by
  intro selections member
  obtain ⟨node, inside, rfl⟩ := List.mem_map.mp member
  obtain ⟨_, occurrence, reached, rfl, _⟩ := selected.node node inside
  obtain ⟨outer, outerMember, reached⟩ := List.mem_flatMap.mp reached
  have shorter := Unfolded.height_below_lt_of_mem_reachedAll outer reached
  have := low outer outerMember
  omega

end Selected

/-- The entry at a position below a place where an object type has some selection sets. -/
inductive Visited (schema : Schema) :
    String → List (List Unfolded) → Position → Entry → Prop
  | here {object key : String} {selectionSets : List (List Unfolded)} {entry : Entry}
      (selected : Selected schema object selectionSets key entry) :
      Visited schema object selectionSets [⟨object, key⟩] entry
  | under {object key inner : String} {selectionSets : List (List Unfolded)}
      {entry found : Entry} {objects : List String} {position : Position}
      (selected : Selected schema object selectionSets key entry)
      (followed : objectsOf schema entry.type.typeName = .ok objects)
      (member : inner ∈ objects)
      (inside : Visited schema inner entry.selectionSets position found) :
      Visited schema object selectionSets (⟨object, key⟩ :: position) found

namespace Visited

variable {schema : Schema} {object : String} {selectionSets : List (List Unfolded)}
  {position : Position} {entry : Entry}

theorem cons_iff {step : Step} {rest : Position} {found : Entry} :
    Visited schema object selectionSets (step :: rest) found ↔
      step.object = object ∧ ∃ entry, Selected schema object selectionSets step.key entry ∧
        (rest = [] ∧ found = entry ∨
          ∃ objects inner, objectsOf schema entry.type.typeName = .ok objects ∧
            inner ∈ objects ∧ Visited schema inner entry.selectionSets rest found) := by
  constructor
  · intro visited
    cases visited with
    | here selected => exact ⟨rfl, found, selected, .inl ⟨rfl, rfl⟩⟩
    | under selected followed member inside =>
        exact ⟨rfl, _, selected, .inr ⟨_, _, followed, member, inside⟩⟩
  · rintro ⟨rfl, entry, selected, ⟨rfl, rfl⟩ | ⟨objects, inner, followed, member, inside⟩⟩
    · exact .here selected
    · exact .under selected followed member inside

theorem exists_cons (visited : Visited schema object selectionSets position entry) :
    ∃ key rest, position = ⟨object, key⟩ :: rest := by
  cases visited <;> exact ⟨_, _, rfl⟩

theorem isEntryOf (visited : Visited schema object selectionSets position entry) :
    ∃ parent, IsEntryOf schema parent entry.nodes entry := by
  induction visited with
  | here selected => exact ⟨_, selected.isEntryOf⟩
  | under _ _ _ _ ih => exact ih

theorem unfolds {table : Fragment.Table}
    (visited : Visited schema object selectionSets position entry)
    (unfolds : ∀ selections ∈ selectionSets, table.Unfolds selections) :
    ∀ selections ∈ entry.selectionSets, table.Unfolds selections := by
  induction visited with
  | here selected => exact selected.unfolds unfolds
  | under selected _ _ _ ih => exact ih (selected.unfolds unfolds)

theorem child_iff {inner key : String} {child : Entry}
    (visited : Visited schema object selectionSets position entry) :
    Visited schema object selectionSets (position ++ [⟨inner, key⟩]) child ↔
      ∃ objects, objectsOf schema entry.type.typeName = .ok objects ∧ inner ∈ objects ∧
        Selected schema inner entry.selectionSets key child := by
  induction visited with
  | here selected =>
      rw [List.singleton_append, cons_iff]
      constructor
      · rintro ⟨_, again, selectedAgain, ⟨impossible, _⟩ |
          ⟨objects, next, followed, member, inside⟩⟩
        · cases impossible
        · cases selected.unique selectedAgain
          obtain ⟨rfl, last, answered, ⟨_, rfl⟩ | ⟨_, _, _, _, further⟩⟩ := cons_iff.mp inside
          · exact ⟨objects, followed, member, answered⟩
          · obtain ⟨_, _, impossible⟩ := further.exists_cons
            cases impossible
      · rintro ⟨objects, followed, member, answered⟩
        exact ⟨rfl, _, selected, .inr ⟨objects, inner, followed, member, .here answered⟩⟩
  | under selected followed member inside ih =>
      rw [List.cons_append, cons_iff, ← ih]
      constructor
      · rintro ⟨_, again, selectedAgain, ⟨impossible, _⟩ | ⟨objects, next, _, _, further⟩⟩
        · exact absurd impossible (by simp)
        · cases selected.unique selectedAgain
          obtain ⟨_, _, rfl⟩ := inside.exists_cons
          obtain ⟨_, _, same⟩ := further.exists_cons
          cases same
          exact further
      · intro further
        exact ⟨rfl, _, selected, .inr ⟨_, _, followed, member, further⟩⟩

end Visited

def visitsOfGroup (schema : Schema) (depth : Nat) (above : Position) (object : String)
    (group : String × List FieldNode) : Except Lookahead.Fault (List (Position × Entry)) := do
  match ← entryOfGroup? schema object group.2 with
  | none => pure []
  | some entry =>
    let position := above ++ [⟨object, group.1⟩]
    let objects ← (objectsOf schema entry.type.typeName).mapError .lookup
    let inner ← objects.mapM fun inner =>
      positionsBelow schema depth position inner (group.2.map (·.below))
    pure ((position, entry) :: inner.flatten)

theorem positionsBelow_succ (schema : Schema) (depth : Nat) (above : Position) (object : String)
    (selectionSets : List (List Unfolded)) :
    positionsBelow schema (depth + 1) above object selectionSets = (do
      let found ← groups schema object selectionSets
      let parts ← found.mapM (visitsOfGroup schema depth above object)
      pure parts.flatten) := rfl

theorem positionsBelow_succ_eq_ok {schema : Schema} {depth : Nat} {above : Position}
    {object : String} {selectionSets : List (List Unfolded)}
    {visits : List (Position × Entry)} :
    positionsBelow schema (depth + 1) above object selectionSets = .ok visits ↔
      ∃ found parts, groups schema object selectionSets = .ok found ∧
        List.Forall₂ (fun group part => visitsOfGroup schema depth above object group = .ok part)
          found parts ∧ visits = parts.flatten := by
  rw [positionsBelow_succ]
  constructor
  · intro run
    obtain ⟨found, gathered, run⟩ := bind_eq_ok.mp run
    obtain ⟨parts, made, same⟩ := bind_eq_ok.mp run
    cases same
    exact ⟨found, parts, gathered, mapM_eq_ok.mp made, rfl⟩
  · rintro ⟨found, parts, gathered, made, rfl⟩
    exact bind_eq_ok.mpr ⟨found, gathered, bind_eq_ok.mpr ⟨parts, mapM_eq_ok.mpr made, rfl⟩⟩

structure GroupVisits (schema : Schema) (depth : Nat) (above : Position) (object : String)
    (group : String × List FieldNode) (part : List (Position × Entry)) (entry : Entry)
    (objects : List String) (inner : List (List (Position × Entry))) : Prop where
  known : entryOfGroup? schema object group.2 = .ok (some entry)
  followed : objectsOf schema entry.type.typeName = .ok objects
  walked : List.Forall₂ (fun next visits =>
    positionsBelow schema depth (above ++ [⟨object, group.1⟩]) next entry.selectionSets =
      .ok visits) objects inner
  visits : part = (above ++ [⟨object, group.1⟩], entry) :: inner.flatten

theorem visitsOfGroup_eq_ok {schema : Schema} {depth : Nat} {above : Position}
    {object : String} {group : String × List FieldNode} {part : List (Position × Entry)}
    (filled : group.2 ≠ []) (found : visitsOfGroup schema depth above object group = .ok part) :
    ∃ entry objects inner, GroupVisits schema depth above object group part entry objects
      inner := by
  obtain ⟨answer, known, found⟩ := bind_eq_ok.mp found
  cases answer with
  | none => exact absurd known (known_ne_none filled)
  | some entry =>
      obtain ⟨objects, followed, found⟩ := bind_eq_ok.mp found
      obtain ⟨inner, walked, same⟩ := bind_eq_ok.mp found
      cases same
      refine ⟨entry, objects, inner, known, mapError_eq_ok.mp followed, ?_, rfl⟩
      rw [Entry.selectionSets, (isEntryOf_of_known known).nodes_eq]
      exact mapM_eq_ok.mp walked

theorem Selected.groupVisits {schema : Schema} {depth : Nat} {above : Position}
    {object key : String} {selectionSets : List (List Unfolded)} {entry : Entry}
    {visits : List (Position × Entry)}
    (selected : Selected schema object selectionSets key entry)
    (walked : positionsBelow schema (depth + 1) above object selectionSets = .ok visits) :
    ∃ part objects inner, part ⊆ visits ∧
      GroupVisits schema depth above object (key, entry.nodes) part entry objects inner := by
  obtain ⟨found, parts, gathered, made, rfl⟩ := positionsBelow_succ_eq_ok.mp walked
  obtain ⟨found', nodes, gathered', member, known⟩ := selected
  rw [gathered] at gathered'
  cases gathered'
  have filled := (groups_gatheredFrom gathered).filled _ member
  obtain ⟨part, inParts, partFound⟩ := exists_of_forall₂_left made member
  obtain ⟨other, objects, inner, groupVisits⟩ := visitsOfGroup_eq_ok filled partFound
  have same := groupVisits.known
  rw [known] at same
  cases same
  rw [(isEntryOf_of_known known).nodes_eq]
  exact ⟨part, objects, inner,
    fun visit visitMember => List.mem_flatten.mpr ⟨part, inParts, visitMember⟩, groupVisits⟩

theorem mem_positionsBelow {schema : Schema} (depth : Nat) {above : Position}
    {object : String} {selectionSets : List (List Unfolded)}
    {visits : List (Position × Entry)} {position : Position} {entry : Entry}
    (walked : positionsBelow schema depth above object selectionSets = .ok visits)
    (member : (position, entry) ∈ visits) :
    ∃ steps, position = above ++ steps ∧
      Visited schema object selectionSets steps entry := by
  induction depth generalizing above object selectionSets visits with
  | zero =>
      cases walked
      cases member
  | succ depth ih =>
      obtain ⟨found, parts, gathered, made, rfl⟩ := positionsBelow_succ_eq_ok.mp walked
      obtain ⟨part, inParts, member⟩ := List.mem_flatten.mp member
      obtain ⟨group, inGroups, partFound⟩ := exists_of_forall₂_right made inParts
      have filled := (groups_gatheredFrom gathered).filled group inGroups
      obtain ⟨answered, objects, inner, groupVisits⟩ := visitsOfGroup_eq_ok filled partFound
      have selected : Selected schema object selectionSets group.1 answered :=
        ⟨found, group.2, gathered, inGroups, groupVisits.known⟩
      rw [groupVisits.visits] at member
      rcases List.mem_cons.mp member with same | member
      · cases same
        exact ⟨_, rfl, .here selected⟩
      · obtain ⟨visits, inInner, member⟩ := List.mem_flatten.mp member
        obtain ⟨next, inObjects, walked⟩ :=
          exists_of_forall₂_right groupVisits.walked inInner
        obtain ⟨steps, rfl, visited⟩ := ih walked member
        exact ⟨_, List.append_assoc _ _ _,
          .under selected groupVisits.followed inObjects visited⟩

def Answers (schema : Schema) (object : String) (selectionSets : List (List Unfolded)) : Prop :=
  ∃ found, groups schema object selectionSets = .ok found ∧
    ∀ group ∈ found, ∃ entry, entryOfGroup? schema object group.2 = .ok (some entry)

def Followed (schema : Schema) (entry : Entry) : Prop :=
  ∃ objects, objectsOf schema entry.type.typeName = .ok objects ∧
    ∀ inner ∈ objects, Answers schema inner entry.selectionSets

theorem Answers.selected_iff {table : Fragment.Table} {schema : Schema} {object : String}
    {selectionSets : List (List Unfolded)}
    (answers : Answers schema object selectionSets)
    (unfolds : ∀ selections ∈ selectionSets, table.Unfolds selections) (key : String) :
    (∃ entry, Selected schema object selectionSets key entry) ↔
      ∃ occurrence ∈ selectionSets.flatMap (Unfolded.reachedAll []),
        occurrence.node.label.key = key ∧ AppliesTo schema object occurrence := by
  constructor
  · rintro ⟨entry, selected⟩
    obtain ⟨node, inside⟩ := List.exists_mem_of_ne_nil _ selected.nodes_ne_nil
    obtain ⟨keyed, occurrence, reached, rfl, applies⟩ := selected.node node inside
    exact ⟨occurrence, reached, keyed, applies⟩
  · rintro ⟨occurrence, reached, rfl, applies⟩
    obtain ⟨found, gathered, known⟩ := answers
    have present := groups_complete unfolds gathered reached applies
    obtain ⟨group, member, keyed⟩ := List.mem_map.mp present
    obtain ⟨entry, entryOf⟩ := known group member
    rw [← keyed]
    exact ⟨entry, found, group.2, gathered, member, entryOf⟩

theorem exists_depth {depth : Nat} {selectionSets : List (List Unfolded)}
    (filled : selectionSets ≠ [])
    (low : ∀ selections ∈ selectionSets, Unfolded.heightOfAll selections < depth) :
    ∃ lower, depth = lower + 1 := by
  obtain ⟨selections, member⟩ := List.exists_mem_of_ne_nil _ filled
  exact Nat.exists_eq_add_one.mpr (Nat.zero_lt_of_lt (low selections member))

theorem answers_of_positionsBelow {schema : Schema} {depth : Nat} {above : Position}
    {object : String} {selectionSets : List (List Unfolded)}
    {visits : List (Position × Entry)}
    (walked : positionsBelow schema (depth + 1) above object selectionSets = .ok visits) :
    Answers schema object selectionSets := by
  obtain ⟨found, parts, gathered, made, _⟩ := positionsBelow_succ_eq_ok.mp walked
  refine ⟨found, gathered, ?_⟩
  intro group member
  have filled := (groups_gatheredFrom gathered).filled group member
  obtain ⟨part, _, partFound⟩ := exists_of_forall₂_left made member
  obtain ⟨entry, _, _, groupVisits⟩ := visitsOfGroup_eq_ok filled partFound
  exact ⟨entry, groupVisits.known⟩

theorem Visited.mem_positionsBelow {schema : Schema} {depth : Nat} {above steps : Position}
    {object : String} {selectionSets : List (List Unfolded)} {entry : Entry}
    {visits : List (Position × Entry)}
    (visited : Visited schema object selectionSets steps entry)
    (low : ∀ selections ∈ selectionSets, Unfolded.heightOfAll selections < depth)
    (walked : positionsBelow schema depth above object selectionSets = .ok visits) :
    (above ++ steps, entry) ∈ visits ∧ Followed schema entry := by
  induction visited generalizing depth above visits with
  | here selected =>
      obtain ⟨depth, rfl⟩ := exists_depth selected.selectionSets_ne_nil low
      obtain ⟨part, objects, inner, within, groupVisits⟩ := selected.groupVisits walked
      constructor
      · apply within
        rw [groupVisits.visits]
        exact List.mem_cons_self
      · refine ⟨objects, groupVisits.followed, ?_⟩
        intro next member
        obtain ⟨visits, _, walked⟩ := exists_of_forall₂_left groupVisits.walked member
        obtain ⟨lower, rfl⟩ := exists_depth
          (List.map_eq_nil_iff.not.mpr selected.nodes_ne_nil) (selected.height low)
        exact answers_of_positionsBelow walked
  | under selected followed member inside ih =>
      obtain ⟨depth, rfl⟩ := exists_depth selected.selectionSets_ne_nil low
      obtain ⟨part, objects, inner, within, groupVisits⟩ := selected.groupVisits walked
      have same := groupVisits.followed
      rw [followed] at same
      cases same
      obtain ⟨visits, inInner, walked⟩ := exists_of_forall₂_left groupVisits.walked member
      obtain ⟨visitMember, further⟩ := ih (selected.height low) walked
      refine ⟨within ?_, further⟩
      rw [groupVisits.visits]
      apply List.mem_cons_of_mem
      rw [List.append_assoc] at visitMember
      exact List.mem_flatten.mpr ⟨visits, inInner, visitMember⟩

theorem ofDocument_eq (schema : Schema) {document : Query.Document} {name? : Option String}
    {operation : Query.Operation} {table : Fragment.Table}
    (chosen : chooseOperation document name? = .ok operation)
    (built : Fragment.Table.ofDocument document = .ok table) :
    ofDocument schema document name? =
      match schema.root? operation.kind with
      | none => .error (.noRoot operation.kind)
      | some root =>
        (positions schema root (table.unfold operation.selections)).mapError .lookahead >>=
          fun visits => pure ⟨operation, table, root, visits, entriesOf visits, rfl⟩ := by
  rw [ofDocument, chosen, built]
  rfl

section Made

variable {schema : Schema} {document : Query.Document} {name? : Option String} {plan : Plan}

theorem walked_of_ofDocument (made : ofDocument schema document name? = .ok plan) :
    schema.root? plan.operation.kind = some plan.root ∧
      positions schema plan.root (plan.fragments.unfold plan.operation.selections) =
        .ok plan.visits := by
  obtain ⟨operation, _, made⟩ := bind_eq_ok.mp made
  obtain ⟨table, _, made⟩ := bind_eq_ok.mp made
  cases rooted : schema.root? operation.kind with
  | none =>
      rw [rooted] at made
      cases made
  | some root =>
      rw [rooted] at made
      obtain ⟨visits, walked, same⟩ := bind_eq_ok.mp made
      cases same
      exact ⟨rooted, mapError_eq_ok.mp walked⟩

theorem sources_of_ofDocument (made : ofDocument schema document name? = .ok plan) :
    chooseOperation document name? = .ok plan.operation ∧
      Fragment.Table.ofDocument document = .ok plan.fragments := by
  obtain ⟨operation, chosen, made⟩ := bind_eq_ok.mp made
  obtain ⟨table, built, made⟩ := bind_eq_ok.mp made
  cases rooted : schema.root? operation.kind with
  | none =>
      rw [rooted] at made
      cases made
  | some root =>
      rw [rooted] at made
      obtain ⟨visits, _, same⟩ := bind_eq_ok.mp made
      cases same
      exact ⟨chosen, mapError_eq_ok.mp built⟩

theorem root?_of_ofDocument (made : ofDocument schema document name? = .ok plan) :
    schema.root? plan.operation.kind = some plan.root :=
  (walked_of_ofDocument made).1

theorem positions_of_ofDocument (made : ofDocument schema document name? = .ok plan) :
    positions schema plan.root (plan.fragments.unfold plan.operation.selections) =
      .ok plan.visits :=
  (walked_of_ofDocument made).2

theorem mem_visits_iff (made : ofDocument schema document name? = .ok plan)
    {position : Position} {entry : Entry} :
    (position, entry) ∈ plan.visits ↔
      Visited schema plan.root [plan.fragments.unfold plan.operation.selections] position
        entry := by
  have walked := positions_of_ofDocument made
  rw [positions] at walked
  constructor
  · intro member
    obtain ⟨steps, rfl, visited⟩ := mem_positionsBelow _ walked member
    exact visited
  · intro visited
    exact (visited.mem_positionsBelow (by simp) walked).1

theorem followed_of_mem_visits (made : ofDocument schema document name? = .ok plan)
    {position : Position} {entry : Entry} (member : (position, entry) ∈ plan.visits) :
    Followed schema entry :=
  (((mem_visits_iff made).mp member).mem_positionsBelow (by simp)
    (positions_of_ofDocument made)).2

theorem unfolds_of_mem_visits (made : ofDocument schema document name? = .ok plan)
    {position : Position} {entry : Entry} (member : (position, entry) ∈ plan.visits) :
    ∀ selections ∈ entry.selectionSets, plan.fragments.Unfolds selections := by
  refine ((mem_visits_iff made).mp member).unfolds ?_
  intro selections inside
  exact ⟨_, (List.mem_singleton.mp inside).symm⟩

theorem child_mem_visits_iff (made : ofDocument schema document name? = .ok plan)
    {position : Position} {entry child : Entry} {object key : String}
    (member : (position, entry) ∈ plan.visits) :
    (position ++ [⟨object, key⟩], child) ∈ plan.visits ↔
      ∃ objects, objectsOf schema entry.type.typeName = .ok objects ∧ object ∈ objects ∧
        Selected schema object entry.selectionSets key child := by
  rw [mem_visits_iff made]
  exact ((mem_visits_iff made).mp member).child_iff

end Made

end FieldLookahead.Plan
