import FieldLookahead.Proofs.Lookahead.Contents
import FieldLookahead.Proofs.Plan.Walk
import FieldLookahead.Proofs.Schema.Conformance

namespace FieldLookahead

open Fragment (Unfolded FieldNode Occurrence)

/-! The lookaheads of a plan against its positions. A lookahead attributes a field by the
innermost condition alone, while a position stands for fields all of whose conditions apply. -/

namespace Schema

/-- Types that may stand in one place give a field that they share one type. -/
def CoherentFields (schema : Schema) : Prop :=
  ∀ typeName types, schema.possibleTypes typeName = .ok types →
    ∀ one ∈ types, ∀ other ∈ types, ∀ name field otherField,
      schema.field one name = .ok field → schema.field other name = .ok otherField →
        field.type.typeName = otherField.type.typeName

def declaredFields (schema : Schema) : List (String × Field) :=
  schema.types.types.flatMap fun type => type.shape?.elim [] (·.fields.entries)

theorem mem_declaredFields {schema : Schema} {typeName name : String} {field : Field}
    (declared : schema.field typeName name = .ok field) :
    (name, field) ∈ schema.declaredFields := by
  obtain ⟨type, shape, known, shaped, filed⟩ := field_eq_ok.mp declared
  refine List.mem_flatMap.mpr ⟨type, TypeTable.mem_types_of_get? known, ?_⟩
  rw [shaped]
  exact OrderedMap.get?_eq_some.mp filed

theorem coherentFields_of_declaredFields {schema : Schema}
    (shared : ∀ one ∈ schema.declaredFields, ∀ other ∈ schema.declaredFields,
      one.1 = other.1 → one.2.type.typeName = other.2.type.typeName) :
    schema.CoherentFields := by
  intro _ _ _ _ _ _ _ name field otherField declared otherDeclared
  exact shared _ (mem_declaredFields declared) _ (mem_declaredFields otherDeclared) rfl

end Schema

namespace Plan

def Entry.reached (entry : Entry) : List Occurrence := entry.nodes.flatMap FieldNode.reached

theorem Entry.reached_eq (entry : Entry) :
    entry.selectionSets.flatMap (Unfolded.reachedAll []) = entry.reached := by
  rw [selectionSets, List.flatMap_map]
  rfl

/-- The nodes of each position name one field. -/
def UniformNodes (plan : Plan) : Prop :=
  ∀ position entry, (position, entry) ∈ plan.visits →
    ∀ one ∈ entry.nodes, ∀ other ∈ entry.nodes, one.label.name = other.label.name

variable {schema : Schema} {document : Query.Document} {name? : Option String} {plan : Plan}
  {object key : String} {types : List String} {position : Position} {entry child : Entry}

theorem exists_possibleTypes {typeName : String} {objects : List String}
    (followed : objectsOf schema typeName = .ok objects) (member : object ∈ objects) :
    ∃ types, schema.possibleTypes typeName = .ok types ∧ object ∈ types ∧
      schema.types.isObject object = true := by
  obtain ⟨leaf, _, followed⟩ := bind_eq_ok.mp followed
  cases leaf with
  | true =>
      cases followed
      cases member
  | false =>
      obtain ⟨types, possible, same⟩ := bind_eq_ok.mp followed
      cases same
      exact ⟨types, possible, List.mem_filter.mp member⟩

theorem AppliesTo.isCandidate {occurrence : Occurrence}
    (applies : AppliesTo schema object occurrence) (member : object ∈ types) :
    object ∈ Lookahead.candidatesAfter schema types occurrence.conditions := by
  rw [AppliesTo] at applies
  cases crossed : occurrence.conditions with
  | nil => exact member
  | cons condition outer =>
      rw [crossed] at applies
      obtain ⟨inner, possible, inside⟩ := applies condition List.mem_cons_self
      rw [Lookahead.candidatesAfter, possible]
      exact inside

theorem possibleTypes_eq_candidatesAfter {typeName : String} {conditions : List String}
    (possible : schema.possibleTypes typeName = .ok types)
    (member : object ∈ Lookahead.candidatesAfter schema types conditions) :
    ∃ name, schema.possibleTypes name =
      .ok (Lookahead.candidatesAfter schema types conditions) := by
  cases conditions with
  | nil => exact ⟨typeName, possible⟩
  | cons condition outer =>
      rw [Lookahead.candidatesAfter] at member ⊢
      cases asked : schema.possibleTypes condition with
      | error fault =>
          rw [asked] at member
          cases member
      | ok inner => exact ⟨condition, asked⟩

theorem IsEntryOf.collects {parent : String} (isEntry : IsEntryOf schema parent entry.nodes entry)
    (possible : schema.possibleTypes entry.type.typeName = .ok types) (member : object ∈ types) :
    ∃ requests, Assoc.get? object entry.lookahead = some requests ∧
      Lookahead.Collects schema types
        (Lookahead.attributedTo schema types object entry.reached) requests :=
  Lookahead.ofNodes_collects possible isEntry.lookahead member

theorem Selected.announced {requests : Requests} (member : object ∈ types)
    (collects : Lookahead.Collects schema types
      (Lookahead.attributedTo schema types object entry.reached) requests)
    (selected : Selected schema object entry.selectionSets key child) :
    ∀ node ∈ child.nodes, ∃ occurrence request found, occurrence.node = node ∧
      object ∈ Lookahead.candidatesAfter schema types occurrence.conditions ∧
      Lookahead.Contributes schema types occurrence (key, request) ∧
      Assoc.get? key requests = some found ∧ Request.ContainedIn request found := by
  intro node inside
  obtain ⟨rfl, occurrence, reached, rfl, applies⟩ := selected.node node inside
  rw [Entry.reached_eq] at reached
  have isCandidate := applies.isCandidate member
  obtain ⟨⟨addedKey, request⟩, contributes, contained⟩ :=
    collects.takes occurrence (Lookahead.mem_attributedTo.mpr ⟨reached, isCandidate⟩)
  have keyed : addedKey = occurrence.node.label.key := contributes.keyed
  subst keyed
  rw [Requests.containedIn_eq] at contained
  obtain ⟨found, present, within⟩ := contained _ List.mem_cons_self
  exact ⟨occurrence, request, found, rfl, isCandidate, contributes, present, within⟩

theorem exists_alone {occurrence : Occurrence} {request : Request} {field : Schema.Field}
    {parent : String} (coherent : schema.CoherentFields)
    (possible : schema.possibleTypes parent = .ok types)
    (isCandidate : object ∈ Lookahead.candidatesAfter schema types occurrence.conditions)
    (declared : schema.field object occurrence.node.label.name = .ok field)
    (selects : occurrence.node.below ≠ [])
    (contributes : Lookahead.Contributes schema types occurrence (key, request)) :
    ∃ alone, request = .nested alone ∧
      Lookahead.ofNodes schema field.type.typeName [occurrence.node] = .ok alone := by
  cases contributes with
  | leaf bare => exact absurd bare selects
  | @nested first others typeName alone _ candidates typed asked =>
      obtain ⟨name, together⟩ := possibleTypes_eq_candidatesAfter possible isCandidate
      obtain ⟨representative, _, told, _, rfl⟩ := Schema.fieldType_eq_ok.mp typed
      have firstMember : first ∈ Lookahead.candidatesAfter schema types occurrence.conditions := by
        rw [candidates]
        exact List.mem_cons_self
      have same := coherent name _ together first firstMember object isCandidate _ _ _ told
        declared
      rw [same] at asked
      exact ⟨alone, rfl, asked⟩

theorem child_collects (made : ofDocument schema document name? = .ok plan)
    (member : (position, entry) ∈ plan.visits)
    (childMember : (position ++ [⟨object, key⟩], child) ∈ plan.visits) :
    ∃ types requests, schema.possibleTypes entry.type.typeName = .ok types ∧ object ∈ types ∧
      Assoc.get? object entry.lookahead = some requests ∧
      Lookahead.Collects schema types
        (Lookahead.attributedTo schema types object entry.reached) requests ∧
      Selected schema object entry.selectionSets key child := by
  obtain ⟨objects, followed, inside, selected⟩ := (child_mem_visits_iff made member).mp childMember
  obtain ⟨types, possible, inTypes, _⟩ := exists_possibleTypes followed inside
  obtain ⟨parent, isEntry⟩ := ((mem_visits_iff made).mp member).isEntryOf
  obtain ⟨requests, present, collects⟩ := isEntry.collects possible inTypes
  exact ⟨types, requests, possible, inTypes, present, collects, selected⟩

/-- Each position below a position is announced: its object type has an entry with its key, and
sub-fields are announced with it if its type is composite. -/
theorem lookahead_announces_child (made : ofDocument schema document name? = .ok plan)
    (member : (position, entry) ∈ plan.visits)
    (childMember : (position ++ [⟨object, key⟩], child) ∈ plan.visits) :
    ∃ requests request, Assoc.get? object entry.lookahead = some requests ∧
      Assoc.get? key requests = some request ∧
      ∀ kind, schema.kind child.type.typeName = .ok kind → kind.isComposite = true →
        ∃ below, request = .nested below := by
  obtain ⟨types, requests, possible, inTypes, present, collects, selected⟩ :=
    child_collects made member childMember
  obtain ⟨node, inNodes⟩ := List.exists_mem_of_ne_nil _ selected.nodes_ne_nil
  obtain ⟨occurrence, request, found, rfl, _, contributes, announced, within⟩ :=
    selected.announced inTypes collects node inNodes
  refine ⟨requests, found, present, announced, ?_⟩
  intro kind known composite
  obtain ⟨inner, innerPossible⟩ := Schema.possibleTypes_of_isComposite known composite
  have selects := Lookahead.ofNodes_selects innerPossible selected.isEntryOf.lookahead _ inNodes
  cases contributes with
  | leaf bare => exact absurd bare selects
  | nested _ _ _ _ =>
      rw [Request.ContainedIn] at within
      obtain ⟨below, same, _⟩ := within
      exact ⟨below, same⟩

def petDocument : Query.Document :=
  let field (name : String) (below : List Query.Selection) : Query.Selection :=
    .field ⟨none, name, ⟨1, 1⟩⟩ below
  let on (condition : String) (below : List Query.Selection) : Query.Selection :=
    .inline (some condition) ⟨1, 1⟩ below
  [.operation ⟨.query, none, [field "pet" [field "friend" [field "name" []],
    on "Dog" [on "Pet" [field "name" []]]]]⟩]

theorem isSome_petPlan : (ofDocument .pets petDocument none).toOption.isSome = true := by
  decide

def petPlan : Plan := (ofDocument .pets petDocument none).toOption.get isSome_petPlan

theorem ofDocument_pets : ofDocument .pets petDocument none = .ok petPlan :=
  eq_ok_of_isSome isSome_petPlan

theorem positions_petPlan :
    petPlan.visits.map Prod.fst =
      [[⟨"Query", "pet"⟩],
        [⟨"Query", "pet"⟩, ⟨"Dog", "friend"⟩],
        [⟨"Query", "pet"⟩, ⟨"Dog", "friend"⟩, ⟨"Dog", "name"⟩],
        [⟨"Query", "pet"⟩, ⟨"Dog", "friend"⟩, ⟨"Cat", "name"⟩],
        [⟨"Query", "pet"⟩, ⟨"Dog", "name"⟩],
        [⟨"Query", "pet"⟩, ⟨"Cat", "friend"⟩],
        [⟨"Query", "pet"⟩, ⟨"Cat", "friend"⟩, ⟨"Dog", "name"⟩],
        [⟨"Query", "pet"⟩, ⟨"Cat", "friend"⟩, ⟨"Cat", "name"⟩]] := by
  decide

theorem exists_entry {visits : List (Position × Entry)}
    (member : position ∈ visits.map Prod.fst) : ∃ entry, (position, entry) ∈ visits := by
  obtain ⟨⟨_, entry⟩, inside, rfl⟩ := List.mem_map.mp member
  exact ⟨entry, inside⟩

theorem exists_pet : ∃ entry, ([⟨"Query", "pet"⟩], entry) ∈ petPlan.visits :=
  exists_entry (by simp [positions_petPlan])

theorem exists_friend :
    ∃ entry, ([⟨"Query", "pet"⟩] ++ [⟨"Dog", "friend"⟩], entry) ∈ petPlan.visits :=
  exists_entry (by simp [positions_petPlan])

theorem lookahead_announces_child_of_pets :
    ∃ entry child, ([⟨"Query", "pet"⟩], entry) ∈ petPlan.visits ∧
      ([⟨"Query", "pet"⟩] ++ [⟨"Dog", "friend"⟩], child) ∈ petPlan.visits ∧
      ∃ requests request, Assoc.get? "Dog" entry.lookahead = some requests ∧
        Assoc.get? "friend" requests = some request ∧
        ∀ kind, Schema.pets.kind child.type.typeName = .ok kind → kind.isComposite = true →
          ∃ below, request = .nested below := by
  obtain ⟨entry, member⟩ := exists_pet
  obtain ⟨child, childMember⟩ := exists_friend
  exact ⟨entry, child, member, childMember,
    lookahead_announces_child ofDocument_pets member childMember⟩

/-- Where the value of a field has no sub-fields, nothing is requested below the field. What is
announced of it depends on its nodes alone, which have all sub-selections or none. -/
theorem lookahead_tells_leaf_child (made : ofDocument schema document name? = .ok plan)
    (member : (position, entry) ∈ plan.visits)
    (childMember : (position ++ [⟨object, key⟩], child) ∈ plan.visits)
    (leaf : schema.isLeaf child.type.typeName = .ok true) :
    child.lookahead = [] ∧ ∃ requests request, Assoc.get? object entry.lookahead = some requests ∧
      Assoc.get? key requests = some request ∧
      ((∀ node ∈ child.nodes, node.below = []) ∧ request = .leaf ∨
        (∀ node ∈ child.nodes, node.below ≠ []) ∧ ∃ below, request = .nested below) := by
  obtain ⟨types, requests, _, inTypes, present, collects, selected⟩ :=
    child_collects made member childMember
  have announced : ∀ node ∈ child.nodes, ∃ found, Assoc.get? key requests = some found ∧
      (node.below = [] ↔ found = .leaf) := by
    intro node inNodes
    obtain ⟨occurrence, request, found, rfl, _, contributes, announced, within⟩ :=
      selected.announced inTypes collects node inNodes
    refine ⟨found, announced, ?_⟩
    cases contributes with
    | leaf bare =>
        rw [Request.ContainedIn] at within
        simp [bare, within]
    | nested selects _ _ _ =>
        rw [Request.ContainedIn] at within
        obtain ⟨below, same, _⟩ := within
        simp [selects, same]
  obtain ⟨first, inNodes⟩ := List.exists_mem_of_ne_nil _ selected.nodes_ne_nil
  obtain ⟨request, found, _⟩ := announced first inNodes
  have each : ∀ node ∈ child.nodes, node.below = [] ↔ request = .leaf := by
    intro node inside
    obtain ⟨again, foundAgain, shaped⟩ := announced node inside
    cases found.symm.trans foundAgain
    exact shaped
  refine ⟨?_, requests, request, present, found, ?_⟩
  · have looked := selected.isEntryOf.lookahead
    rw [Lookahead.ofNodes_eq_ok, leaf] at looked
    simpa using looked
  · cases request with
    | leaf => exact .inl ⟨fun node inside => (each node inside).mpr rfl, rfl⟩
    | nested below => exact .inr ⟨fun node inside => by simp [each node inside], below, rfl⟩

theorem lookahead_tells_leaf_child_of_pets :
    ∃ entry child, ([⟨"Query", "pet"⟩], entry) ∈ petPlan.visits ∧
      ([⟨"Query", "pet"⟩] ++ [⟨"Dog", "name"⟩], child) ∈ petPlan.visits ∧
      Schema.pets.isLeaf child.type.typeName = .ok true ∧
      child.lookahead = [] ∧ ∃ requests request, Assoc.get? "Dog" entry.lookahead = some requests ∧
        Assoc.get? "name" requests = some request ∧
        ((∀ node ∈ child.nodes, node.below = []) ∧ request = .leaf ∨
          (∀ node ∈ child.nodes, node.below ≠ []) ∧ ∃ below, request = .nested below) := by
  obtain ⟨entry, member⟩ := exists_pet
  obtain ⟨child, childMember⟩ :
      ∃ child, ([⟨"Query", "pet"⟩] ++ [⟨"Dog", "name"⟩], child) ∈ petPlan.visits :=
    exists_entry (by simp [positions_petPlan])
  have known : ∀ visit ∈ petPlan.visits,
      visit.1 = [⟨"Query", "pet"⟩] ++ [⟨"Dog", "name"⟩] →
        Schema.pets.isLeaf visit.2.type.typeName = .ok true := by
    decide +kernel
  have leaf := known _ childMember rfl
  exact ⟨entry, child, member, childMember, leaf,
    lookahead_tells_leaf_child ofDocument_pets member childMember leaf⟩

def nameDocument : Query.Document :=
  let field (name : String) (below : List Query.Selection) : Query.Selection :=
    .field ⟨none, name, ⟨1, 1⟩⟩ below
  [.operation ⟨.query, none, [field "pet" [field "name" [field "length" []]]]⟩]

theorem isSome_namePlan : (ofDocument .pets nameDocument none).toOption.isSome = true := by
  decide

def namePlan : Plan := (ofDocument .pets nameDocument none).toOption.get isSome_namePlan

/-- What is announced of a field whose value has no sub-fields need not be a leaf: sub-selections
of it are enough to announce sub-fields. -/
theorem exists_nested_leaf_child :
    ¬ ∀ (schema : Schema) (document : Query.Document) (name? : Option String) (plan : Plan),
      ofDocument schema document name? = .ok plan →
      ∀ (position : Position) (entry child : Entry) (object key : String),
        (position, entry) ∈ plan.visits → (position ++ [⟨object, key⟩], child) ∈ plan.visits →
        schema.isLeaf child.type.typeName = .ok true →
        ∃ requests, Assoc.get? object entry.lookahead = some requests ∧
          Assoc.get? key requests = some .leaf := by
  intro pure
  have positions : [⟨"Query", "pet"⟩] ∈ namePlan.visits.map Prod.fst ∧
      [⟨"Query", "pet"⟩] ++ [⟨"Dog", "name"⟩] ∈ namePlan.visits.map Prod.fst := by
    decide +kernel
  obtain ⟨entry, member⟩ := exists_entry positions.1
  obtain ⟨child, childMember⟩ := exists_entry positions.2
  have leaf : ∀ visit ∈ namePlan.visits, visit.1 = [⟨"Query", "pet"⟩] ++ [⟨"Dog", "name"⟩] →
      Schema.pets.isLeaf visit.2.type.typeName = .ok true := by
    decide +kernel
  have announced : ∀ visit ∈ namePlan.visits, visit.1 = [⟨"Query", "pet"⟩] →
      ((Assoc.get? "Dog" visit.2.lookahead).bind (Assoc.get? "name")).map Request.isLeaf =
        some false := by
    decide +kernel
  obtain ⟨requests, present, found⟩ := pure .pets nameDocument none namePlan
    (eq_ok_of_isSome isSome_namePlan) _ entry child "Dog" "name" member childMember
    (leaf _ childMember rfl)
  have nested := announced _ member rfl
  rw [present, Option.bind_some, found] at nested
  cases nested

theorem UniformNodes.name_eq (uniform : plan.UniformNodes)
    (member : (position, entry) ∈ plan.visits) {parent : String}
    (isEntry : IsEntryOf schema parent entry.nodes entry) :
    ∀ node ∈ entry.nodes, node.label.name = entry.field := by
  obtain ⟨first, others, nodes, named⟩ := isEntry.first
  intro node inside
  rw [named]
  exact uniform position entry member node inside first (nodes ▸ List.mem_cons_self)

theorem Selected.contains_alone {requests : Requests} {inner : List String}
    (coherent : schema.CoherentFields)
    (possible : schema.possibleTypes entry.type.typeName = .ok types) (member : object ∈ types)
    (collects : Lookahead.Collects schema types
      (Lookahead.attributedTo schema types object entry.reached) requests)
    (selected : Selected schema object entry.selectionSets key child)
    (named : ∀ node ∈ child.nodes, node.label.name = child.field)
    (innerPossible : schema.possibleTypes child.type.typeName = .ok inner) :
    ∀ node ∈ child.nodes, ∃ alone below,
      Lookahead.ofNodes schema child.type.typeName [node] = .ok alone ∧
        Assoc.get? key requests = some (.nested below) ∧
        Lookahead.ContainedIn alone below := by
  intro node inside
  obtain ⟨field, declared, typed⟩ := selected.isEntryOf.declared
  obtain ⟨occurrence, request, found, rfl, isCandidate, contributes, announced, within⟩ :=
    selected.announced member collects node inside
  rw [← named occurrence.node inside] at declared
  have selects :=
    Lookahead.ofNodes_selects innerPossible selected.isEntryOf.lookahead _ inside
  obtain ⟨alone, rfl, asked⟩ :=
    exists_alone coherent possible isCandidate declared selects contributes
  rw [Request.ContainedIn] at within
  obtain ⟨below, rfl, contained⟩ := within
  rw [typed]
  exact ⟨alone, below, asked, announced, contained⟩

/-- What is requested at a position is contained in what the position above announced for it. -/
theorem lookahead_contains_child (coherent : schema.CoherentFields)
    (made : ofDocument schema document name? = .ok plan) (uniform : plan.UniformNodes)
    (member : (position, entry) ∈ plan.visits)
    (childMember : (position ++ [⟨object, key⟩], child) ∈ plan.visits) {kind : Schema.Kind}
    (known : schema.kind child.type.typeName = .ok kind) (composite : kind.isComposite = true) :
    ∃ requests below, Assoc.get? object entry.lookahead = some requests ∧
      Assoc.get? key requests = some (.nested below) ∧
      Lookahead.merge below child.lookahead = .ok below := by
  obtain ⟨types, requests, possible, inTypes, present, collects, selected⟩ :=
    child_collects made member childMember
  obtain ⟨inner, innerPossible⟩ := Schema.possibleTypes_of_isComposite known composite
  have each := selected.contains_alone coherent possible inTypes collects
    (uniform.name_eq childMember selected.isEntryOf) innerPossible
  obtain ⟨first, inNodes⟩ := List.exists_mem_of_ne_nil _ selected.nodes_ne_nil
  obtain ⟨_, below, _, announced, _⟩ := each first inNodes
  have contained : Lookahead.ContainedIn child.lookahead below := by
    apply Lookahead.ofNodes_containedIn innerPossible selected.isEntryOf.lookahead
      selected.nodes_ne_nil
    intro node inside
    obtain ⟨alone, other, asked, again, within⟩ := each node inside
    rw [announced] at again
    cases again
    exact ⟨alone, asked, within⟩
  refine ⟨requests, below, present, announced, ?_⟩
  rw [Lookahead.merge, Attempt.finished_eq_ok]
  exact (Lookahead.accumulates child.lookahead).fixed key contained

theorem coherentFields_pets : Schema.pets.CoherentFields :=
  Schema.coherentFields_of_declaredFields (by decide)

theorem uniformNodes_petPlan : petPlan.UniformNodes := by
  have checked : ∀ visit ∈ petPlan.visits, ∀ one ∈ visit.2.nodes, ∀ other ∈ visit.2.nodes,
      one.label.name = other.label.name := by
    decide
  intro position entry member
  exact checked (position, entry) member

theorem lookahead_contains_child_of_pets :
    ∃ entry child, ([⟨"Query", "pet"⟩], entry) ∈ petPlan.visits ∧
      ([⟨"Query", "pet"⟩] ++ [⟨"Dog", "friend"⟩], child) ∈ petPlan.visits ∧
      ∃ requests below, Assoc.get? "Dog" entry.lookahead = some requests ∧
        Assoc.get? "friend" requests = some (.nested below) ∧
        Lookahead.merge below child.lookahead = .ok below := by
  obtain ⟨entry, member⟩ := exists_pet
  obtain ⟨child, childMember⟩ := exists_friend
  have known : ∀ visit ∈ petPlan.visits,
      visit.1 = [⟨"Query", "pet"⟩] ++ [⟨"Dog", "friend"⟩] →
        Schema.pets.kind visit.2.type.typeName = .ok .interface := by
    decide +kernel
  exact ⟨entry, child, member, childMember,
    lookahead_contains_child coherentFields_pets ofDocument_pets uniformNodes_petPlan member
      childMember (known _ childMember rfl) rfl⟩

/-- A lookahead has a key for an object type exactly if a field with the key is reached whose
innermost condition applies, and there is a position exactly if one is reached all of whose
conditions apply. -/
theorem lookahead_keys_iff (made : ofDocument schema document name? = .ok plan)
    (member : (position, entry) ∈ plan.visits)
    (possible : schema.possibleTypes entry.type.typeName = .ok types) (inTypes : object ∈ types)
    (isObject : schema.types.isObject object = true) :
    ∃ requests, Assoc.get? object entry.lookahead = some requests ∧ ∀ key,
      (key ∈ Assoc.keys requests ↔ ∃ occurrence ∈ entry.reached,
        occurrence.node.label.key = key ∧
          object ∈ Lookahead.candidatesAfter schema types occurrence.conditions) ∧
      ((∃ child, (position ++ [⟨object, key⟩], child) ∈ plan.visits) ↔
        ∃ occurrence ∈ entry.reached, occurrence.node.label.key = key ∧
          AppliesTo schema object occurrence) := by
  obtain ⟨parent, isEntry⟩ := ((mem_visits_iff made).mp member).isEntryOf
  obtain ⟨requests, present, collects⟩ := isEntry.collects possible inTypes
  refine ⟨requests, present, ?_⟩
  intro key
  constructor
  · rw [collects.keys]
    constructor
    · rintro ⟨occurrence, attributed, keyed⟩
      obtain ⟨reached, isCandidate⟩ := Lookahead.mem_attributedTo.mp attributed
      exact ⟨occurrence, reached, keyed, isCandidate⟩
    · rintro ⟨occurrence, reached, keyed, isCandidate⟩
      exact ⟨occurrence, Lookahead.mem_attributedTo.mpr ⟨reached, isCandidate⟩, keyed⟩
  · have followed := objectsOf_eq possible
    have inObjects : object ∈ types.filter schema.types.isObject :=
      List.mem_filter.mpr ⟨inTypes, isObject⟩
    obtain ⟨objects, alsoFollowed, answers⟩ := followed_of_mem_visits made member
    rw [followed] at alsoFollowed
    cases alsoFollowed
    have selected := (answers object inObjects).selected_iff
      (unfolds_of_mem_visits made member) key
    rw [Entry.reached_eq] at selected
    rw [← selected]
    constructor
    · rintro ⟨child, childMember⟩
      obtain ⟨_, _, _, selected⟩ := (child_mem_visits_iff made member).mp childMember
      exact ⟨child, selected⟩
    · rintro ⟨child, selected⟩
      exact ⟨child, (child_mem_visits_iff made member).mpr ⟨_, followed, inObjects, selected⟩⟩

theorem possibleTypes_pet {entry : Entry}
    (member : ([⟨"Query", "pet"⟩], entry) ∈ petPlan.visits) :
    Schema.pets.possibleTypes entry.type.typeName = .ok ["Pet", "Dog", "Cat"] := by
  have known : ∀ visit ∈ petPlan.visits, visit.1 = [⟨"Query", "pet"⟩] →
      Schema.pets.possibleTypes visit.2.type.typeName = .ok ["Pet", "Dog", "Cat"] := by
    decide
  exact known _ member rfl

theorem isObject_cat : Schema.pets.types.isObject "Cat" = true := by
  decide

theorem lookahead_keys_iff_of_pets :
    ∃ entry, ([⟨"Query", "pet"⟩], entry) ∈ petPlan.visits ∧
      ∃ requests, Assoc.get? "Cat" entry.lookahead = some requests ∧ ∀ key,
        (key ∈ Assoc.keys requests ↔ ∃ occurrence ∈ entry.reached,
          occurrence.node.label.key = key ∧
            "Cat" ∈ Lookahead.candidatesAfter .pets ["Pet", "Dog", "Cat"]
              occurrence.conditions) ∧
        ((∃ child, ([⟨"Query", "pet"⟩] ++ [⟨"Cat", key⟩], child) ∈ petPlan.visits) ↔
          ∃ occurrence ∈ entry.reached, occurrence.node.label.key = key ∧
            AppliesTo .pets "Cat" occurrence) := by
  obtain ⟨entry, member⟩ := exists_pet
  exact ⟨entry, member, lookahead_keys_iff ofDocument_pets member (possibleTypes_pet member)
    (by simp) isObject_cat⟩

/-- A recorded key need not be the key of a position: a condition inside another one that the
object type does not meet is enough to record it. -/
theorem exists_recorded_key_without_position :
    ¬ ∀ (schema : Schema) (document : Query.Document) (name? : Option String) (plan : Plan),
      ofDocument schema document name? = .ok plan →
      ∀ (position : Position) (entry : Entry) (types : List String) (object key : String)
        (requests : Requests),
        (position, entry) ∈ plan.visits →
        schema.possibleTypes entry.type.typeName = .ok types → object ∈ types →
        schema.types.isObject object = true →
        Assoc.get? object entry.lookahead = some requests → key ∈ Assoc.keys requests →
        ∃ child, (position ++ [⟨object, key⟩], child) ∈ plan.visits := by
  intro precise
  obtain ⟨entry, member⟩ := exists_pet
  have recorded : ∀ visit ∈ petPlan.visits, visit.1 = [⟨"Query", "pet"⟩] →
      (Assoc.get? "Cat" visit.2.lookahead).map Assoc.keys = some ["friend", "name"] := by
    decide +kernel
  obtain ⟨requests, present, keys⟩ := Option.map_eq_some_iff.mp (recorded _ member rfl)
  have inside : "name" ∈ Assoc.keys requests := by
    rw [keys]
    simp
  obtain ⟨child, childMember⟩ := precise .pets petDocument none petPlan ofDocument_pets _ entry _
    "Cat" "name" requests member (possibleTypes_pet member) (by simp) isObject_cat present inside
  have absent : [⟨"Query", "pet"⟩] ++ [⟨"Cat", "name"⟩] ∈ petPlan.visits.map Prod.fst :=
    List.mem_map_of_mem childMember
  rw [positions_petPlan] at absent
  revert absent
  decide

end Plan
end FieldLookahead
