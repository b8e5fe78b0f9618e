import FieldLookahead.Lookahead.Attribution
import FieldLookahead.Proofs.Fragment.Reached
import FieldLookahead.Proofs.Lookahead.Containment

namespace FieldLookahead

namespace Lookahead

open Fragment (Unfolded FieldNode Occurrence)

/-! Adding what selections request adds to each type of a lookahead, in document order, what
exactly those reached fields request whose candidates include the type. -/

/-- The candidates in force after some conditions: the innermost condition alone decides, and
without a condition the candidates outside do. -/
def candidatesAfter (schema : Schema) (outside : List String) : List String → List String
  | [] => outside
  | condition :: _ => (schema.possibleTypes condition).toOption.getD []

/-- What a reached field adds under its response key to each of its candidates. The first
candidate tells the type of a field that has sub-fields. -/
inductive Contributes (schema : Schema) (outside : List String) :
    Occurrence → String × Request → Prop
  | leaf {occurrence : Occurrence} (bare : occurrence.node.below = []) :
      Contributes schema outside occurrence (occurrence.node.label.key, .leaf)
  | nested {occurrence : Occurrence} {first : String} {others : List String}
      {typeName : String} {below : Lookahead} (selects : occurrence.node.below ≠ [])
      (candidates : candidatesAfter schema outside occurrence.conditions = first :: others)
      (typed : schema.fieldType first occurrence.node.label.name = .ok typeName)
      (found : ofNodes schema typeName [occurrence.node] = .ok below) :
      Contributes schema outside occurrence (occurrence.node.label.key, .nested below)

/-- The reached fields that a type is a candidate of. -/
def attributedTo (schema : Schema) (outside : List String) (typeName : String)
    (occurrences : List Occurrence) : List Occurrence :=
  occurrences.filter fun occurrence =>
    typeName ∈ candidatesAfter schema outside occurrence.conditions

/-- From one lookahead to another, each type has taken in, in order, what exactly its reached
fields contribute, and nothing else has changed. -/
structure Attributes (schema : Schema) (outside : List String) (occurrences : List Occurrence)
    (start finish : Lookahead) : Prop where
  types : Assoc.keys finish = Assoc.keys start
  resolved : ∀ occurrence ∈ occurrences, ∀ condition ∈ occurrence.conditions,
    ∃ candidates, schema.possibleTypes condition = .ok candidates
  entry : ∀ typeName old, Assoc.get? typeName start = some old →
    ∃ added new,
      List.Forall₂ (Contributes schema outside)
        (attributedTo schema outside typeName occurrences) added ∧
      Requests.absorb old added = .done new ∧ Assoc.get? typeName finish = some new

theorem addTo_eq_done {key typeName : String} {request : Request} {before after : Lookahead} :
    addTo key request typeName before = .done after ↔
      Assoc.get? typeName before = none ∧ after = before ∨
        ∃ old new, Assoc.get? typeName before = some old ∧
          Requests.absorb old [(key, request)] = .done new ∧
          after = Assoc.insert typeName new before := by
  rw [addTo]
  cases found : Assoc.get? typeName before with
  | none => simp [eq_comm]
  | some old =>
      rw [Attempt.map_eq_done]
      constructor
      · rintro ⟨new, absorbed, rfl⟩
        exact .inr ⟨old, new, rfl, absorbed, rfl⟩
      · rintro (⟨impossible, _⟩ | ⟨_, new, same, absorbed, rfl⟩)
        · cases impossible
        · cases same
          exact ⟨new, absorbed, rfl⟩

theorem withRequest_eq_done {found : Except Fault Lookahead} {start finish : Lookahead}
    {next : Request → Attempt Fault Lookahead} :
    withRequest found start next = .done finish ↔
      ∃ below, found = .ok below ∧ next (.nested below) = .done finish := by
  cases found <;> simp [withRequest]

theorem underCondition_eq_done {schema : Schema} {condition : String} {start finish : Lookahead}
    {next : List String → Attempt Fault Lookahead} :
    underCondition schema condition start next = .done finish ↔
      ∃ candidates, schema.possibleTypes condition = .ok candidates ∧
        next candidates = .done finish := by
  rw [underCondition]
  cases schema.possibleTypes condition <;> simp

theorem addNode_eq_done {schema : Schema} {typeName : String} {candidates : List String}
    {node : FieldNode} {before after : Lookahead} :
    addNode schema typeName candidates node before = .done after ↔
      node.below ≠ [] ∧ addSelections schema candidates node.below before = .done after := by
  rw [addNode]
  cases node.below <;> simp

theorem ofNodes_eq_ok {schema : Schema} {typeName : String} {nodes : List FieldNode}
    {lookahead : Lookahead} :
    ofNodes schema typeName nodes = .ok lookahead ↔
      schema.isLeaf typeName = .ok true ∧ lookahead = [] ∨
        schema.isLeaf typeName = .ok false ∧ ∃ candidates,
          schema.possibleTypes typeName = .ok candidates ∧
          Attempt.each (addNode schema typeName candidates) nodes (ofTypes candidates) =
            .done lookahead := by
  simp only [ofNodes, below, bind_eq_ok, mapError_eq_ok]
  constructor
  · rintro ⟨leaf, known, found⟩
    cases leaf with
    | true =>
        cases found
        exact .inl ⟨known, rfl⟩
    | false =>
        obtain ⟨candidates, possible, run⟩ := bind_eq_ok.mp found
        exact .inr ⟨known, candidates, mapError_eq_ok.mp possible,
          Attempt.finished_eq_ok.mp run⟩
  · rintro (⟨known, rfl⟩ | ⟨known, candidates, possible, run⟩)
    · exact ⟨true, known, rfl⟩
    · refine ⟨false, known, bind_eq_ok.mpr ⟨candidates, mapError_eq_ok.mpr possible, ?_⟩⟩
      exact Attempt.finished_eq_ok.mpr run

theorem ofNodes_single (schema : Schema) (typeName : String) {node : FieldNode}
    (selects : node.below ≠ []) :
    ofNodes schema typeName [node] =
      below schema typeName fun candidates => addSelections schema candidates node.below := by
  have notEmpty : ¬ node.below.isEmpty = true := fun empty =>
    selects (List.isEmpty_iff.mp empty)
  simp only [ofNodes, Attempt.each, Attempt.andThen_done, addNode, if_neg notEmpty]

theorem addSelection_field_cases {schema : Schema} {candidates : List String}
    {label : Query.FieldLabel} {selections : List Unfolded} {start finish : Lookahead}
    (added : addSelection schema candidates (.field label selections) start = .done finish) :
    label.isMeta = true ∧ finish = start ∨
      label.isMeta = false ∧ selections = [] ∧
        Attempt.each (addTo label.key .leaf) candidates start = .done finish ∨
      label.isMeta = false ∧ selections ≠ [] ∧ candidates = [] ∧ finish = start ∨
      label.isMeta = false ∧ selections ≠ [] ∧ ∃ first others typeName found,
        candidates = first :: others ∧ schema.fieldType first label.name = .ok typeName ∧
        ofNodes schema typeName [⟨label, selections⟩] = .ok found ∧
        Attempt.each (addTo label.key (.nested found)) candidates start = .done finish := by
  cases recorded : label.isMeta with
  | true =>
      simp only [addSelection, recorded, if_true] at added
      cases added
      exact .inl ⟨rfl, rfl⟩
  | false =>
      refine .inr ?_
      cases selections with
      | nil =>
          simp only [addSelection, recorded, List.isEmpty_nil, if_true] at added
          exact .inl ⟨rfl, rfl, Attempt.mapError_eq_done.mp added⟩
      | cons selection rest =>
          refine .inr ?_
          cases candidates with
          | nil =>
              simp only [addSelection, recorded, List.isEmpty_cons] at added
              cases added
              exact .inl ⟨rfl, List.cons_ne_nil _ _, rfl, rfl⟩
          | cons first others =>
              refine .inr ⟨rfl, List.cons_ne_nil _ _, first, others, ?_⟩
              simp only [addSelection, recorded, List.isEmpty_cons, Bool.false_eq_true,
                if_false] at added
              obtain ⟨found, asked, run⟩ := withRequest_eq_done.mp added
              obtain ⟨typeName, typed, filled⟩ := bind_eq_ok.mp asked
              refine ⟨typeName, found, rfl, mapError_eq_ok.mp typed, ?_,
                Attempt.mapError_eq_done.mp run⟩
              rw [ofNodes_single schema typeName (List.cons_ne_nil _ _)]
              exact filled

theorem addTo_distinct {key typeName : String} {request : Request} {before after : Lookahead}
    (good : Request.Distinct request) (distinct : Lookahead.Distinct before)
    (added : addTo key request typeName before = .done after) : Lookahead.Distinct after := by
  rcases addTo_eq_done.mp added with ⟨_, rfl⟩ | ⟨old, new, found, absorbed, rfl⟩
  · exact distinct
  · have old := Lookahead.Distinct.get? distinct found
    rw [Lookahead.distinct_eq] at distinct ⊢
    apply distinct.insert
    refine (Requests.accumulates [(key, request)]).good key old ?_ absorbed
    simp [Requests.Distinct, Assoc.keys, good]

theorem each_addTo_distinct {key : String} {request : Request} {candidates : List String}
    {start finish : Lookahead} (good : Request.Distinct request)
    (distinct : Lookahead.Distinct start)
    (run : Attempt.each (addTo key request) candidates start = .done finish) :
    Lookahead.Distinct finish :=
  Attempt.each_invariant (fun _ _ _ _ held added => addTo_distinct good held added) distinct run

theorem ofTypes_distinct (typeNames : List String) : Lookahead.Distinct (ofTypes typeNames) := by
  rw [Lookahead.distinct_eq, ofTypes, Assoc.ofList, List.foldl_map]
  refine List.foldlRecOn typeNames _ ⟨List.nodup_nil, by simp⟩ ?_
  intro collected distinct typeName _
  exact distinct.insert typeName trivial

mutual
theorem addSelection_distinct (schema : Schema) :
    ∀ (selection : Unfolded) (candidates : List String) (start finish : Lookahead),
      Lookahead.Distinct start →
      addSelection schema candidates selection start = .done finish →
      Lookahead.Distinct finish
  | .field label selections, candidates, start, finish, distinct, added => by
      rcases addSelection_field_cases added with ⟨_, rfl⟩ | ⟨_, _, run⟩ | ⟨_, _, _, rfl⟩ |
        ⟨_, _, first, others, typeName, found, _, _, asked, run⟩
      · exact distinct
      · have good : Request.Distinct .leaf := trivial
        exact each_addTo_distinct good distinct run
      · exact distinct
      · refine each_addTo_distinct ?_ distinct run
        rcases ofNodes_eq_ok.mp asked with ⟨_, rfl⟩ | ⟨_, types, _, filled⟩
        · trivial
        · rw [Attempt.each_singleton] at filled
          obtain ⟨_, filled⟩ := addNode_eq_done.mp filled
          exact addSelections_distinct schema selections types _ found (ofTypes_distinct types)
            filled
  | .inline none selections, candidates, start, finish, distinct, added => by
      rw [addSelection] at added
      exact addSelections_distinct schema selections candidates start finish distinct added
  | .inline (some condition) selections, candidates, start, finish, distinct, added => by
      rw [addSelection] at added
      obtain ⟨inner, _, added⟩ := underCondition_eq_done.mp added
      exact addSelections_distinct schema selections inner start finish distinct added
  | .spread name condition selections, candidates, start, finish, distinct, added => by
      rw [addSelection] at added
      obtain ⟨inner, _, added⟩ := underCondition_eq_done.mp added
      exact addSelections_distinct schema selections inner start finish distinct added
  | .unknown name, candidates, start, finish, distinct, added => by
      rw [addSelection] at added
      cases added

theorem addSelections_distinct (schema : Schema) :
    ∀ (selections : List Unfolded) (candidates : List String) (start finish : Lookahead),
      Lookahead.Distinct start →
      addSelections schema candidates selections start = .done finish →
      Lookahead.Distinct finish
  | [], candidates, start, finish, distinct, added => by
      cases added
      exact distinct
  | selection :: rest, candidates, start, finish, distinct, added => by
      rw [addSelections] at added
      obtain ⟨middle, first, others⟩ := Attempt.andThen_eq_done.mp added
      exact addSelections_distinct schema rest candidates middle finish
        (addSelection_distinct schema selection candidates start middle distinct first) others
end

theorem ofNodes_distinct {schema : Schema} {typeName : String} {nodes : List FieldNode}
    {lookahead : Lookahead} (found : ofNodes schema typeName nodes = .ok lookahead) :
    Lookahead.Distinct lookahead := by
  rcases ofNodes_eq_ok.mp found with ⟨_, rfl⟩ | ⟨_, candidates, _, run⟩
  · trivial
  · refine Attempt.each_invariant ?_ (ofTypes_distinct candidates) run
    intro node _ before after distinct added
    obtain ⟨_, added⟩ := addNode_eq_done.mp added
    exact addSelections_distinct schema node.below candidates before after distinct added

theorem addTo_keys {key typeName : String} {request : Request} {before after : Lookahead}
    (added : addTo key request typeName before = .done after) :
    Assoc.keys after = Assoc.keys before := by
  rcases addTo_eq_done.mp added with ⟨_, rfl⟩ | ⟨old, new, found, _, rfl⟩
  · rfl
  · rw [Assoc.keys_insert, if_pos]
    exact (Assoc.get?_isSome typeName before).mp (Option.isSome_of_eq_some found)

theorem each_addTo_keys {key : String} {request : Request} {candidates : List String}
    {start finish : Lookahead}
    (run : Attempt.each (addTo key request) candidates start = .done finish) :
    Assoc.keys finish = Assoc.keys start := by
  induction candidates generalizing start with
  | nil =>
      cases run
      rfl
  | cons candidate rest ih =>
      obtain ⟨middle, added, run⟩ := Attempt.each_cons_eq_done.mp run
      exact (ih run).trans (addTo_keys added)

theorem get?_addTo_of_ne {key typeName other : String} {request : Request}
    {before after : Lookahead} (differs : typeName ≠ other)
    (added : addTo key request typeName before = .done after) :
    Assoc.get? other after = Assoc.get? other before := by
  rcases addTo_eq_done.mp added with ⟨_, rfl⟩ | ⟨old, new, _, _, rfl⟩
  · rfl
  · exact Assoc.get?_insert_of_ne differs new before

theorem absorb_again {key : String} {request : Request} {old new : Requests}
    (good : Request.Distinct request)
    (absorbed : Requests.absorb old [(key, request)] = .done new) :
    Requests.absorb new [(key, request)] = .done new := by
  have laws := Requests.accumulates [(key, request)]
  apply laws.fixed key
  refine laws.takes key ?_ absorbed
  simp [Requests.Distinct, Assoc.keys, good]

theorem get?_each_addTo {key typeName : String} {request : Request}
    (good : Request.Distinct request) {candidates : List String} {start finish : Lookahead}
    (run : Attempt.each (addTo key request) candidates start = .done finish) {old : Requests}
    (present : Assoc.get? typeName start = some old) :
    ∃ new, Assoc.get? typeName finish = some new ∧
      if typeName ∈ candidates then Requests.absorb old [(key, request)] = .done new
      else new = old := by
  induction candidates generalizing start old with
  | nil =>
      cases run
      exact ⟨old, present, rfl⟩
  | cons candidate rest ih =>
      obtain ⟨middle, added, run⟩ := Attempt.each_cons_eq_done.mp run
      by_cases same : candidate = typeName
      · subst same
        rcases addTo_eq_done.mp added with ⟨absent, _⟩ | ⟨_, new, here, absorbed, rfl⟩
        · rw [present] at absent
          cases absent
        · rw [present] at here
          cases here
          obtain ⟨last, found, more⟩ := ih run (Assoc.get?_insert_self _ new _)
          refine ⟨last, found, ?_⟩
          rw [if_pos List.mem_cons_self]
          split at more
          · rw [absorb_again good absorbed] at more
            cases more
            exact absorbed
          · rw [more]
            exact absorbed
      · rw [← get?_addTo_of_ne same added] at present
        obtain ⟨new, found, more⟩ := ih run present
        refine ⟨new, found, ?_⟩
        simpa only [List.mem_cons, Ne.symm same, false_or] using more

theorem Attributes.nil (schema : Schema) (outside : List String) (lookahead : Lookahead) :
    Attributes schema outside [] lookahead lookahead where
  types := rfl
  resolved := by simp
  entry _ old present := ⟨[], old, .nil, by rw [Requests.absorb], present⟩

theorem Attributes.append {schema : Schema} {outside : List String}
    {first second : List Occurrence} {start middle finish : Lookahead}
    (left : Attributes schema outside first start middle)
    (right : Attributes schema outside second middle finish) :
    Attributes schema outside (first ++ second) start finish where
  types := right.types.trans left.types
  resolved occurrence member := by
    rcases List.mem_append.mp member with member | member
    · exact left.resolved occurrence member
    · exact right.resolved occurrence member
  entry typeName old present := by
    obtain ⟨added, between, contributes, absorbed, present⟩ := left.entry typeName old present
    obtain ⟨more, new, contributesMore, absorbedMore, present⟩ :=
      right.entry typeName between present
    refine ⟨added ++ more, new, ?_, ?_, present⟩
    · rw [attributedTo, List.filter_append]
      exact List.rel_append contributes contributesMore
    · rw [Requests.absorb_append, absorbed]
      exact absorbedMore

theorem Attributes.single {schema : Schema} {outside : List String} {occurrence : Occurrence}
    {request : Request} {start finish : Lookahead}
    (resolved : ∀ condition ∈ occurrence.conditions,
      ∃ candidates, schema.possibleTypes condition = .ok candidates)
    (contributes : Contributes schema outside occurrence (occurrence.node.label.key, request))
    (good : Request.Distinct request)
    (run : Attempt.each (addTo occurrence.node.label.key request)
      (candidatesAfter schema outside occurrence.conditions) start = .done finish) :
    Attributes schema outside [occurrence] start finish where
  types := each_addTo_keys run
  resolved other member := by
    rw [List.mem_singleton.mp member]
    exact resolved
  entry typeName old present := by
    obtain ⟨new, found, taken⟩ := get?_each_addTo good run present
    by_cases candidate : typeName ∈ candidatesAfter schema outside occurrence.conditions
    · rw [if_pos candidate] at taken
      refine ⟨[(occurrence.node.label.key, request)], new, ?_, taken, found⟩
      simpa [attributedTo, candidate] using contributes
    · rw [if_neg candidate] at taken
      refine ⟨[], new, ?_, ?_, found⟩
      · simp [attributedTo, candidate]
      · rw [taken, Requests.absorb]

theorem Attributes.skipped {schema : Schema} {outside : List String} {occurrence : Occurrence}
    (resolved : ∀ condition ∈ occurrence.conditions,
      ∃ candidates, schema.possibleTypes condition = .ok candidates)
    (none : candidatesAfter schema outside occurrence.conditions = [])
    (lookahead : Lookahead) : Attributes schema outside [occurrence] lookahead lookahead where
  types := rfl
  resolved other member := by
    rw [List.mem_singleton.mp member]
    exact resolved
  entry typeName old present := by
    refine ⟨[], old, ?_, by rw [Requests.absorb], present⟩
    simp [attributedTo, none]

mutual
theorem addSelection_attributes (schema : Schema) (outside : List String) :
    ∀ (selection : Unfolded) (crossed : List String) (start finish : Lookahead),
      (∀ condition ∈ crossed, ∃ candidates, schema.possibleTypes condition = .ok candidates) →
      addSelection schema (candidatesAfter schema outside crossed) selection start =
        .done finish →
      Attributes schema outside (selection.reached crossed) start finish
  | .field label selections, crossed, start, finish, resolved, added => by
      rw [Unfolded.reached]
      rcases addSelection_field_cases added with ⟨omitted, rfl⟩ | ⟨recorded, bare, run⟩ |
        ⟨recorded, _, none, rfl⟩ |
        ⟨recorded, selects, first, others, typeName, found, candidates, typed, asked, run⟩
      · rw [if_pos omitted]
        exact .nil schema outside _
      · rw [recorded, if_neg Bool.false_ne_true]
        exact .single resolved (.leaf bare) trivial run
      · rw [recorded, if_neg Bool.false_ne_true]
        exact .skipped resolved none _
      · rw [recorded, if_neg Bool.false_ne_true]
        exact .single resolved (.nested selects candidates typed asked)
          (ofNodes_distinct asked) run
  | .inline none selections, crossed, start, finish, resolved, added => by
      rw [addSelection] at added
      rw [Unfolded.reached]
      exact addSelections_attributes schema outside selections crossed start finish resolved
        added
  | .inline (some condition) selections, crossed, start, finish, resolved, added => by
      rw [addSelection] at added
      rw [Unfolded.reached]
      obtain ⟨inner, possible, added⟩ := underCondition_eq_done.mp added
      apply addSelections_attributes schema outside selections (condition :: crossed) start
      · exact List.forall_mem_cons.mpr ⟨⟨inner, possible⟩, resolved⟩
      · rw [candidatesAfter, possible]
        exact added
  | .spread name condition selections, crossed, start, finish, resolved, added => by
      rw [addSelection] at added
      rw [Unfolded.reached]
      obtain ⟨inner, possible, added⟩ := underCondition_eq_done.mp added
      apply addSelections_attributes schema outside selections (condition :: crossed) start
      · exact List.forall_mem_cons.mpr ⟨⟨inner, possible⟩, resolved⟩
      · rw [candidatesAfter, possible]
        exact added
  | .unknown name, crossed, start, finish, resolved, added => by
      rw [addSelection] at added
      cases added

theorem addSelections_attributes (schema : Schema) (outside : List String) :
    ∀ (selections : List Unfolded) (crossed : List String) (start finish : Lookahead),
      (∀ condition ∈ crossed, ∃ candidates, schema.possibleTypes condition = .ok candidates) →
      addSelections schema (candidatesAfter schema outside crossed) selections start =
        .done finish →
      Attributes schema outside (Unfolded.reachedAll crossed selections) start finish
  | [], crossed, start, finish, resolved, added => by
      cases added
      exact .nil schema outside start
  | selection :: rest, crossed, start, finish, resolved, added => by
      rw [addSelections] at added
      rw [Unfolded.reachedAll]
      obtain ⟨middle, first, others⟩ := Attempt.andThen_eq_done.mp added
      exact .append
        (addSelection_attributes schema outside selection crossed start middle resolved first)
        (addSelections_attributes schema outside rest crossed middle finish resolved others)
end

/-- Adding what selections of a document request attributes to each type what exactly the
selections reach for it. -/
theorem addSelections_attribution (schema : Schema) (table : Fragment.Table)
    (candidates : List String) (selections : List Query.Selection) (start finish : Lookahead)
    (added : addSelections schema candidates (table.unfold selections) start = .done finish) :
    ∃ occurrences, table.ReachesAll [] selections occurrences ∧
      (∀ occurrence ∈ occurrences, occurrence.node.label.isMeta = false) ∧
      Attributes schema candidates occurrences start finish := by
  have reaches := table.reachesAll_unfold [] selections
  refine ⟨_, reaches, reaches.recorded, ?_⟩
  exact addSelections_attributes schema candidates _ [] start finish (by simp) added

end Lookahead

def Schema.petTypes : Schema.TypeTable :=
  let location : Syntax.Location := ⟨none, ⟨1, 1⟩⟩
  let field (owner name typeName : String) : String × Schema.Field :=
    (name, ⟨name, owner, .named typeName true, ∅, none, location⟩)
  let shape (owner : String) (interfaces : List String) : Schema.Shape :=
    ⟨interfaces, .ofList [field owner "name" "String", field owner "friend" "Pet"]⟩
  [.object ⟨"Query", none, location⟩ ⟨[], .ofList [field "Query" "pet" "Pet"]⟩,
    .interface ⟨"Pet", none, location⟩ (shape "Pet" []),
    .object ⟨"Dog", none, location⟩ (shape "Dog" ["Pet"]),
    .object ⟨"Cat", none, location⟩ (shape "Cat" ["Pet"])].foldl .insert .builtins

def Schema.pets : Schema where
  types := petTypes
  resolved := by decide +kernel
  implementations := petTypes.implementations
  implementations_eq := rfl
  query := ⟨"Query", by decide +kernel⟩
  mutation? := none
  subscription? := none

def Fragment.Table.friendly : Fragment.Table where
  collection := Fragment.Collection.empty.insert
    ⟨⟨"friendly", "Dog", ⟨1, 1⟩,
      [.field ⟨none, "friend", ⟨1, 1⟩⟩ [.field ⟨none, "name", ⟨1, 1⟩⟩ []]]⟩, none⟩
  sound := by decide +kernel

namespace Lookahead

def petSelections : List Query.Selection :=
  [.field ⟨none, "name", ⟨1, 1⟩⟩ [], .spread "friendly" ⟨1, 1⟩]

def petRequests : Lookahead :=
  [("Dog", [("name", .leaf), ("friend", .nested [("Pet", [("name", .leaf)]),
      ("Dog", [("name", .leaf)]), ("Cat", [("name", .leaf)])])]),
    ("Cat", [("name", .leaf)])]

theorem addSelections_attribution_of_pets :
    addSelections .pets ["Pet", "Dog", "Cat"] (Fragment.Table.friendly.unfold petSelections)
        (ofTypes ["Dog", "Cat"]) = .done petRequests ∧
      ∃ occurrences, Fragment.Table.friendly.ReachesAll [] petSelections occurrences ∧
        (∀ occurrence ∈ occurrences, occurrence.node.label.isMeta = false) ∧
        Attributes .pets ["Pet", "Dog", "Cat"] occurrences (ofTypes ["Dog", "Cat"])
          petRequests := by
  have added : addSelections .pets ["Pet", "Dog", "Cat"]
      (Fragment.Table.friendly.unfold petSelections) (ofTypes ["Dog", "Cat"]) =
        .done petRequests := by
    rfl
  exact ⟨added, addSelections_attribution .pets .friendly _ _ _ _ added⟩

end Lookahead
end FieldLookahead
