import FieldLookahead.Proofs.Lookahead.Contents

namespace FieldLookahead.Lookahead

open Fragment (Unfolded FieldNode Occurrence)

/-! When adding what selections request finishes: all conditions on the way to their fields must
have candidates, and each reached field must fit in with what its candidates request already. -/

/-- A selection without spreads of unknown fragments, all of whose conditions have candidates.
What is below its fields does not matter. -/
inductive Resolves (schema : Schema) : Unfolded → Prop
  | field {label : Query.FieldLabel} {below : List Unfolded} :
      Resolves schema (.field label below)
  | bare {below : List Unfolded} (inside : ∀ inner ∈ below, Resolves schema inner) :
      Resolves schema (.inline none below)
  | conditioned {condition : String} {below : List Unfolded} {candidates : List String}
      (possible : schema.possibleTypes condition = .ok candidates)
      (inside : ∀ inner ∈ below, Resolves schema inner) :
      Resolves schema (.inline (some condition) below)
  | spread {name condition : String} {below : List Unfolded} {candidates : List String}
      (possible : schema.possibleTypes condition = .ok candidates)
      (inside : ∀ inner ∈ below, Resolves schema inner) :
      Resolves schema (.spread name condition below)

def Asks (schema : Schema) (outside : List String) (Fits : Occurrence → Request → Prop)
    (occurrence : Occurrence) : Prop :=
  candidatesAfter schema outside occurrence.conditions = [] ∨
    ∃ request, Contributes schema outside occurrence (occurrence.node.label.key, request) ∧
      Fits occurrence request

/-- A selection that resolves, where all reached fields ask for what fits in. -/
structure Addable (schema : Schema) (outside : List String)
    (Fits : Occurrence → Request → Prop) (crossed : List String) (selection : Unfolded) :
    Prop where
  resolves : Resolves schema selection
  asks : ∀ occurrence ∈ selection.reached crossed, Asks schema outside Fits occurrence

section Addable

variable {schema : Schema} {outside crossed : List String}
  {Fits : Occurrence → Request → Prop}

theorem addable_field {label : Query.FieldLabel} {below : List Unfolded} :
    Addable schema outside Fits crossed (.field label below) ↔
      label.isMeta = true ∨ Asks schema outside Fits ⟨⟨label, below⟩, crossed⟩ := by
  constructor
  · rintro ⟨_, asks⟩
    cases recorded : label.isMeta with
    | true => exact .inl rfl
    | false => exact .inr (asks _ (Unfolded.mem_reached_field.mpr ⟨recorded, rfl⟩))
  · intro asks
    refine ⟨.field, fun occurrence reached => ?_⟩
    obtain ⟨recorded, rfl⟩ := Unfolded.mem_reached_field.mp reached
    exact asks.resolve_left (by simp [recorded])

theorem addable_bare {below : List Unfolded} :
    Addable schema outside Fits crossed (.inline none below) ↔
      ∀ inner ∈ below, Addable schema outside Fits crossed inner := by
  constructor
  · rintro ⟨resolves, asks⟩ inner member
    cases resolves with
    | bare inside =>
        refine ⟨inside inner member, fun occurrence reached => asks occurrence ?_⟩
        exact Unfolded.mem_reachedAll.mpr ⟨inner, member, reached⟩
  · intro inside
    refine ⟨.bare fun inner member => (inside inner member).resolves, ?_⟩
    intro occurrence reached
    obtain ⟨inner, member, reached⟩ := Unfolded.mem_reachedAll.mp reached
    exact (inside inner member).asks occurrence reached

theorem addable_conditioned {condition : String} {below : List Unfolded} :
    Addable schema outside Fits crossed (.inline (some condition) below) ↔
      (∃ candidates, schema.possibleTypes condition = .ok candidates) ∧
        ∀ inner ∈ below, Addable schema outside Fits (condition :: crossed) inner := by
  constructor
  · rintro ⟨resolves, asks⟩
    cases resolves with
    | conditioned possible inside =>
        refine ⟨⟨_, possible⟩, fun inner member => ⟨inside inner member, ?_⟩⟩
        intro occurrence reached
        exact asks occurrence (Unfolded.mem_reachedAll.mpr ⟨inner, member, reached⟩)
  · rintro ⟨⟨candidates, possible⟩, inside⟩
    refine ⟨.conditioned possible fun inner member => (inside inner member).resolves, ?_⟩
    intro occurrence reached
    obtain ⟨inner, member, reached⟩ := Unfolded.mem_reachedAll.mp reached
    exact (inside inner member).asks occurrence reached

theorem addable_spread {name condition : String} {below : List Unfolded} :
    Addable schema outside Fits crossed (.spread name condition below) ↔
      Addable schema outside Fits crossed (.inline (some condition) below) := by
  constructor
  · rintro ⟨resolves, asks⟩
    cases resolves with
    | spread possible inside => exact ⟨.conditioned possible inside, asks⟩
  · rintro ⟨resolves, asks⟩
    cases resolves with
    | conditioned possible inside => exact ⟨.spread possible inside, asks⟩

end Addable

variable {schema : Schema} {outside : List String}

theorem addSelections_eq (schema : Schema) (candidates : List String)
    (selections : List Unfolded) :
    addSelections schema candidates selections =
      Attempt.each (addSelection schema candidates) selections := by
  funext start
  induction selections generalizing start with
  | nil => rfl
  | cons selection rest ih => rw [addSelections, Attempt.each, funext ih]

theorem addableAll_of_done {crossed : List String} {selections : List Unfolded}
    {start finish : Lookahead}
    (each : ∀ selection ∈ selections, ∀ {crossed : List String} {start finish : Lookahead},
      addSelection schema (candidatesAfter schema outside crossed) selection start =
        .done finish → Addable schema outside (fun _ _ => True) crossed selection)
    (added : addSelections schema (candidatesAfter schema outside crossed) selections start =
      .done finish) :
    ∀ selection ∈ selections, Addable schema outside (fun _ _ => True) crossed selection := by
  intro selection member
  rw [addSelections_eq] at added
  obtain ⟨before, after, added⟩ := Attempt.exists_step_of_each added member
  exact each selection member added

theorem underCondition_eq_done_iff {crossed : List String} {condition : String}
    {below : List Unfolded} {start finish : Lookahead} :
    underCondition schema condition start (addSelections schema · below start) = .done finish ↔
      (∃ candidates, schema.possibleTypes condition = .ok candidates) ∧
        addSelections schema (candidatesAfter schema outside (condition :: crossed)) below
          start = .done finish := by
  rw [underCondition_eq_done]
  constructor
  · rintro ⟨candidates, possible, added⟩
    refine ⟨⟨candidates, possible⟩, ?_⟩
    rw [candidatesAfter, possible]
    exact added
  · rintro ⟨⟨candidates, possible⟩, added⟩
    rw [candidatesAfter, possible] at added
    exact ⟨candidates, possible, added⟩

theorem addable_of_done {selection : Unfolded} {crossed : List String}
    {start finish : Lookahead}
    (added : addSelection schema (candidatesAfter schema outside crossed) selection start =
      .done finish) :
    Addable schema outside (fun _ _ => True) crossed selection := by
  induction selection using Unfolded.induction generalizing crossed start finish with
  | field label below _ =>
      rw [addable_field]
      rcases addSelection_field_cases added with ⟨omitted, _⟩ | ⟨_, bare, _⟩ |
        ⟨_, _, none, _⟩ | ⟨_, selects, first, others, typeName, found, candidates, typed, asked, _⟩
      · exact .inl omitted
      · exact .inr (.inr ⟨.leaf, .leaf bare, trivial⟩)
      · exact .inr (.inl none)
      · exact .inr (.inr ⟨.nested found, .nested selects candidates typed asked, trivial⟩)
  | inline condition? below ih =>
      rw [addSelection.eq_def] at added
      cases condition? with
      | none => exact addable_bare.mpr (addableAll_of_done ih added)
      | some condition =>
          obtain ⟨possible, added⟩ := underCondition_eq_done_iff.mp added
          exact addable_conditioned.mpr ⟨possible, addableAll_of_done ih added⟩
  | spread name condition below ih =>
      obtain ⟨possible, added⟩ := underCondition_eq_done_iff.mp added
      exact addable_spread.mpr (addable_conditioned.mpr ⟨possible, addableAll_of_done ih added⟩)
  | unknown name => cases added

theorem addSelection_field_nil (label : Query.FieldLabel) (below : List Unfolded)
    (start : Lookahead) : addSelection schema [] (.field label below) start = .done start := by
  rw [addSelection]
  split
  · rfl
  · split <;> rfl

theorem Contributes.addSelection_eq {crossed : List String} {label : Query.FieldLabel}
    {below : List Unfolded} {request : Request} (recorded : label.isMeta = false)
    (contributes : Contributes schema outside ⟨⟨label, below⟩, crossed⟩ (label.key, request))
    (start : Lookahead) :
    addSelection schema (candidatesAfter schema outside crossed) (.field label below) start =
      addToAll (candidatesAfter schema outside crossed) label.key request start := by
  cases contributes with
  | leaf bare =>
      have bare : below = [] := bare
      simp [addSelection, recorded, bare]
  | nested selects candidates typed found =>
      have selects : below ≠ [] := selects
      have candidates : candidatesAfter schema outside crossed = _ :: _ := candidates
      have notEmpty : ¬ below.isEmpty = true := fun empty => selects (List.isEmpty_iff.mp empty)
      rw [ofNodes_single schema _ selects] at found
      rw [candidates]
      simp only [addSelection, recorded, Bool.false_eq_true, if_false, if_neg notEmpty]
      rw [typed]
      exact congrArg (withRequest · start _) found

def TakesIn (schema : Schema) (outside : List String) (Fits : Occurrence → Request → Prop)
    (Holds : Lookahead → Prop) : Prop :=
  ∀ occurrence request, Fits occurrence request →
    ∀ typeName ∈ candidatesAfter schema outside occurrence.conditions,
    ∀ before, Holds before →
      ∃ after, addTo occurrence.node.label.key request typeName before = .done after ∧
        Holds after

section Succeeds

variable {Fits : Occurrence → Request → Prop} {Holds : Lookahead → Prop}

theorem addableAll_succeeds {selections : List Unfolded} {crossed : List String}
    (each : ∀ selection ∈ selections, ∀ {crossed : List String},
      Addable schema outside Fits crossed selection → ∀ {start : Lookahead}, Holds start →
        ∃ finish, addSelection schema (candidatesAfter schema outside crossed) selection start =
          .done finish ∧ Holds finish)
    (addable : ∀ selection ∈ selections, Addable schema outside Fits crossed selection)
    {start : Lookahead} (initially : Holds start) :
    ∃ finish, addSelections schema (candidatesAfter schema outside crossed) selections start =
      .done finish ∧ Holds finish := by
  rw [addSelections_eq]
  exact Attempt.each_succeeds
    (fun selection member _ holds => each selection member (addable selection member) holds)
    initially

theorem Addable.succeeds (takes : TakesIn schema outside Fits Holds) {selection : Unfolded}
    {crossed : List String} (addable : Addable schema outside Fits crossed selection)
    {start : Lookahead} (initially : Holds start) :
    ∃ finish, addSelection schema (candidatesAfter schema outside crossed) selection start =
      .done finish ∧ Holds finish := by
  induction selection using Unfolded.induction generalizing crossed start with
  | field label below _ =>
      rcases addable_field.mp addable with omitted | none | ⟨request, contributes, fits⟩
      · exact ⟨start, by simp [addSelection, omitted], initially⟩
      · have none : candidatesAfter schema outside crossed = [] := none
        exact ⟨start, none ▸ addSelection_field_nil label below start, initially⟩
      · cases recorded : label.isMeta with
        | true => exact ⟨start, by simp [addSelection, recorded], initially⟩
        | false =>
            obtain ⟨finish, run, holds⟩ := Attempt.each_succeeds (takes _ _ fits) initially
            refine ⟨finish, ?_, holds⟩
            rw [contributes.addSelection_eq recorded]
            exact Attempt.mapError_eq_done.mpr run
  | inline condition? below ih =>
      rw [addSelection.eq_def]
      cases condition? with
      | none => exact addableAll_succeeds ih (addable_bare.mp addable) initially
      | some condition =>
          obtain ⟨possible, inside⟩ := addable_conditioned.mp addable
          obtain ⟨finish, run, holds⟩ := addableAll_succeeds ih inside initially
          exact ⟨finish, underCondition_eq_done_iff.mpr ⟨possible, run⟩, holds⟩
  | spread name condition below ih =>
      rw [addSelection]
      obtain ⟨possible, inside⟩ := addable_conditioned.mp (addable_spread.mp addable)
      obtain ⟨finish, run, holds⟩ := addableAll_succeeds ih inside initially
      exact ⟨finish, underCondition_eq_done_iff.mpr ⟨possible, run⟩, holds⟩
  | unknown name => cases addable.resolves

end Succeeds

structure AddableNode (schema : Schema) (outside : List String)
    (Fits : Occurrence → Request → Prop) (node : FieldNode) : Prop where
  selects : node.below ≠ []
  resolves : ∀ selection ∈ node.below, Resolves schema selection
  asks : ∀ occurrence ∈ node.reached, Asks schema outside Fits occurrence

section OfNodes

variable {typeName : String} {nodes : List FieldNode} {types : List String}

theorem addableNode_of_done {node : FieldNode} {start finish : Lookahead}
    (added : addNode schema typeName outside node start = .done finish) :
    AddableNode schema outside (fun _ _ => True) node := by
  obtain ⟨selects, added⟩ := addNode_eq_done.mp added
  have addable : ∀ selection ∈ node.below,
      Addable schema outside (fun _ _ => True) [] selection :=
    addableAll_of_done (fun _ _ => addable_of_done) added
  refine ⟨selects, fun selection member => (addable selection member).resolves, ?_⟩
  intro occurrence reached
  obtain ⟨selection, member, reached⟩ := Unfolded.mem_reachedAll.mp reached
  exact (addable selection member).asks occurrence reached

theorem AddableNode.each {Fits : Occurrence → Request → Prop} {node : FieldNode}
    (addable : AddableNode schema outside Fits node) :
    ∀ selection ∈ node.below, Addable schema outside Fits [] selection := by
  intro selection member
  refine ⟨addable.resolves selection member, fun occurrence reached => ?_⟩
  exact addable.asks occurrence (Unfolded.mem_reachedAll.mpr ⟨selection, member, reached⟩)

theorem AddableNode.succeeds {Fits : Occurrence → Request → Prop} {Holds : Lookahead → Prop}
    (takes : TakesIn schema outside Fits Holds) {node : FieldNode}
    (addable : AddableNode schema outside Fits node) {start : Lookahead}
    (initially : Holds start) :
    ∃ finish, addNode schema typeName outside node start = .done finish ∧ Holds finish := by
  obtain ⟨finish, run, holds⟩ := addableAll_succeeds
    (fun _ _ _ addable _ holds => addable.succeeds takes holds) addable.each initially
  exact ⟨finish, addNode_eq_done.mpr ⟨addable.selects, run⟩, holds⟩

theorem ofNodes_addable {lookahead : Lookahead}
    (possible : schema.possibleTypes typeName = .ok types)
    (found : ofNodes schema typeName nodes = .ok lookahead) :
    ∀ node ∈ nodes, AddableNode schema types (fun _ _ => True) node := by
  intro node member
  obtain ⟨before, after, added⟩ :=
    Attempt.exists_step_of_each ((ofNodes_eq_ok_of_possibleTypes possible).mp found) member
  exact addableNode_of_done added

theorem ofNodes_succeeds {Fits : Occurrence → Request → Prop} {Holds : Lookahead → Prop}
    (possible : schema.possibleTypes typeName = .ok types)
    (takes : TakesIn schema types Fits Holds)
    (addable : ∀ node ∈ nodes, AddableNode schema types Fits node)
    (initially : Holds (ofTypes types)) :
    ∃ lookahead, ofNodes schema typeName nodes = .ok lookahead ∧ Holds lookahead := by
  obtain ⟨lookahead, run, holds⟩ := Attempt.each_succeeds
    (fun node member _ holds => (addable node member).succeeds takes holds) initially
  exact ⟨lookahead, (ofNodes_eq_ok_of_possibleTypes possible).mpr run, holds⟩

/-- What a lookahead has for the candidates of a field includes what the field asks for. -/
def Includes (schema : Schema) (outside : List String) (large : Lookahead)
    (occurrence : Occurrence) (request : Request) : Prop :=
  ∀ candidate ∈ candidatesAfter schema outside occurrence.conditions,
    ∀ requests, Assoc.get? candidate large = some requests →
      Requests.ContainedIn [(occurrence.node.label.key, request)] requests

theorem Contributes.transfer {other : Schema} {others : List String}
    {occurrence twin : Occurrence} {request : Request}
    (contributes : Contributes schema outside occurrence (occurrence.node.label.key, request))
    (selects : occurrence.node.below ≠ [] ↔ twin.node.below ≠ [])
    (first : (candidatesAfter schema outside occurrence.conditions).head? =
      (candidatesAfter other others twin.conditions).head?)
    (typed : ∀ candidate, schema.fieldType candidate occurrence.node.label.name =
      other.fieldType candidate twin.node.label.name)
    (asked : ∀ typeName below, ofNodes schema typeName [occurrence.node] = .ok below →
      ∃ less, ofNodes other typeName [twin.node] = .ok less ∧
        Lookahead.ContainedIn less below) :
    ∃ less, Contributes other others twin (twin.node.label.key, less) ∧
      Request.ContainedIn less request := by
  cases contributes with
  | leaf bare =>
      refine ⟨.leaf, .leaf ?_, by rw [Request.ContainedIn]⟩
      exact not_ne_iff.mp fun selected => selects.mpr selected bare
  | nested selected candidates typedHere found =>
      obtain ⟨less, foundLess, within⟩ := asked _ _ found
      rw [candidates, List.head?_cons, eq_comm, List.head?_eq_some_iff] at first
      obtain ⟨_, candidates⟩ := first
      rw [typed] at typedHere
      exact ⟨.nested less, .nested (selects.mp selected) candidates typedHere foundLess,
        Request.containedIn_nested.mpr ⟨less, rfl, within⟩⟩

theorem Includes.transfer {other : Schema} {others : List String} {large : Lookahead}
    {occurrence twin : Occurrence} {request less : Request}
    (includes : Includes schema outside large occurrence request)
    (key : twin.node.label.key = occurrence.node.label.key)
    (candidates : candidatesAfter other others twin.conditions ⊆
      candidatesAfter schema outside occurrence.conditions)
    (within : Request.ContainedIn less request) : Includes other others large twin less := by
  intro candidate isCandidate requests present
  have contained := includes candidate (candidates isCandidate) requests present
  rw [Requests.ContainedIn] at contained ⊢
  obtain ⟨⟨found, announced, above⟩, _⟩ := contained
  rw [key]
  exact ⟨⟨found, announced, within.trans above⟩, trivial⟩

theorem ofNodes_includes {lookahead : Lookahead}
    (possible : schema.possibleTypes typeName = .ok types)
    (found : ofNodes schema typeName nodes = .ok lookahead) {node : FieldNode}
    (member : node ∈ nodes) {occurrence : Occurrence} (reached : occurrence ∈ node.reached)
    {request : Request}
    (contributes : Contributes schema types occurrence (occurrence.node.label.key, request)) :
    Includes schema types lookahead occurrence request := by
  intro candidate isCandidate requests present
  obtain ⟨_, collects⟩ := ofNodes_get? possible found present
  have attributed := mem_attributedTo.mpr
    ⟨List.mem_flatMap.mpr ⟨node, member, reached⟩, isCandidate⟩
  obtain ⟨entry, again, contained⟩ := collects.takes occurrence attributed
  cases contributes.unique again
  exact contained

theorem takesIn_containedIn (schema : Schema) (outside : List String) (large : Lookahead) :
    TakesIn schema outside (Includes schema outside large)
      (Lookahead.ContainedIn · large) := by
  intro occurrence request includes candidate isCandidate before contained
  cases present : Assoc.get? candidate before with
  | none => exact ⟨before, addTo_eq_done.mpr (.inl ⟨present, rfl⟩), contained⟩
  | some requests =>
      rw [Lookahead.containedIn_eq] at contained
      obtain ⟨top, found, within⟩ := contained _ (Assoc.mem_of_get? present)
      obtain ⟨sum, absorbed, sumWithin⟩ :=
        Requests.absorb_bounded within (includes candidate isCandidate top found)
      refine ⟨Assoc.insert candidate sum before,
        addTo_eq_done.mpr (.inr ⟨requests, sum, present, absorbed, rfl⟩), ?_⟩
      rw [Lookahead.containedIn_eq]
      intro entry member
      rcases Assoc.mem_insert member with rfl | member
      · exact ⟨top, found, sumWithin⟩
      · exact contained entry member

theorem takesIn_self (schema : Schema) (outside : List String) (lookahead : Lookahead) :
    TakesIn schema outside (Includes schema outside lookahead) (· = lookahead) := by
  rintro occurrence request includes candidate isCandidate same rfl
  refine ⟨same, addTo_eq_done.mpr ?_, rfl⟩
  cases present : Assoc.get? candidate same with
  | none => exact .inl ⟨rfl, rfl⟩
  | some requests =>
      refine .inr ⟨requests, requests, rfl, ?_, (Assoc.insert_of_get? present).symm⟩
      exact (Requests.accumulates [_]).fixed candidate
        (includes candidate isCandidate requests present)

theorem ofTypes_containedIn_iff {lookahead : Lookahead} :
    Lookahead.ContainedIn (ofTypes types) lookahead ↔
      ∀ typeName ∈ types, ∃ requests, Assoc.get? typeName lookahead = some requests := by
  rw [Lookahead.containedIn_eq]
  constructor
  · intro contained typeName member
    have present : Assoc.get? typeName (ofTypes types) = some [] := by
      rw [get?_ofTypes, if_pos member]
    obtain ⟨requests, found, _⟩ := contained _ (Assoc.mem_of_get? present)
    exact ⟨requests, found⟩
  · rintro known ⟨typeName, requests⟩ member
    have present := Assoc.get?_of_mem (ofTypes_distinct types).nodup member
    rw [get?_ofTypes] at present
    split at present
    · next inside =>
      cases present
      obtain ⟨requests, found⟩ := known typeName inside
      exact ⟨requests, found, trivial⟩
    · cases present

theorem ofTypes_containedIn {lookahead : Lookahead}
    (possible : schema.possibleTypes typeName = .ok types)
    (found : ofNodes schema typeName nodes = .ok lookahead) :
    Lookahead.ContainedIn (ofTypes types) lookahead := by
  refine ofTypes_containedIn_iff.mpr fun candidate inside => ?_
  obtain ⟨requests, present, _⟩ := ofNodes_collects possible found inside
  exact ⟨requests, present⟩

end OfNodes

end FieldLookahead.Lookahead
