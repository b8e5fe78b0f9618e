import FieldLookahead.Proofs.Fragment.Rearrangement
import FieldLookahead.Proofs.Lookahead.Completion
import FieldLookahead.Proofs.Lookahead.Semilattice
import FieldLookahead.Proofs.Lookahead.TypeNames

namespace FieldLookahead.Lookahead

open Fragment (Table Unfolded FieldNode)

/-! Adding requests to a lookahead in place has the same result as adding them to a fresh one
apart, with entries for the same types, and merging that in. -/

variable {ε ε' α : Type} {step next : Lookahead → Attempt ε Lookahead}

/-- Work that adds to the requests of the types that a lookahead has, and may be done on a summand
before the sum is made, as long as the summand has all the types. -/
structure Separates (step : Lookahead → Attempt ε Lookahead) : Prop where
  distinct : ∀ {start finish : Lookahead}, start.Distinct → step start = .done finish →
    finish.Distinct
  keys : ∀ {start finish : Lookahead}, step start = .done finish →
    Assoc.keys finish = Assoc.keys start
  parts : ∀ {out start sum : Lookahead}, out.Distinct → start.Distinct →
    Assoc.keys out ⊆ Assoc.keys start →
      ((∃ both, Adds out start both ∧ step both = .done sum) ↔
        ∃ part, step start = .done part ∧ Adds out part sum)

namespace Separates

theorem done : Separates (.done : Lookahead → Attempt ε Lookahead) where
  distinct := by
    rintro _ _ distinct ⟨⟩
    exact distinct
  keys := by
    rintro _ _ ⟨⟩
    rfl
  parts _ _ _ := by simp

theorem of_stops (stops : ∀ state finish, step state ≠ .done finish) : Separates step where
  distinct _ finished := absurd finished (stops _ _)
  keys finished := absurd finished (stops _ _)
  parts _ _ _ := by simp [stops]

theorem of_same_runs {step' : Lookahead → Attempt ε' Lookahead} (separates : Separates step)
    (same : ∀ state finish, step' state = .done finish ↔ step state = .done finish) :
    Separates step' where
  distinct distinct finished := separates.distinct distinct ((same _ _).mp finished)
  keys finished := separates.keys ((same _ _).mp finished)
  parts distinct startDistinct within := by
    simp only [same]
    exact separates.parts distinct startDistinct within

theorem andThen (first : Separates step) (second : Separates next) :
    Separates fun state => (step state).andThen next where
  distinct distinct finished := by
    obtain ⟨middle, here, later⟩ := Attempt.andThen_eq_done.mp finished
    exact second.distinct (first.distinct distinct here) later
  keys finished := by
    obtain ⟨middle, here, later⟩ := Attempt.andThen_eq_done.mp finished
    exact (second.keys later).trans (first.keys here)
  parts {out start sum} distinct startDistinct within := by
    simp only [Attempt.andThen_eq_done]
    constructor
    · rintro ⟨both, adds, middle, here, later⟩
      obtain ⟨part, made, added⟩ :=
        (first.parts distinct startDistinct within).mp ⟨both, adds, here⟩
      have partWithin : Assoc.keys out ⊆ Assoc.keys part := first.keys made ▸ within
      obtain ⟨last, made', added'⟩ := (second.parts distinct (first.distinct startDistinct made)
        partWithin).mp ⟨middle, added, later⟩
      exact ⟨last, ⟨part, made, made'⟩, added'⟩
    · rintro ⟨last, ⟨part, made, made'⟩, added⟩
      have partWithin : Assoc.keys out ⊆ Assoc.keys part := first.keys made ▸ within
      obtain ⟨middle, added', later⟩ := (second.parts distinct (first.distinct startDistinct made)
        partWithin).mpr ⟨last, made', added⟩
      obtain ⟨both, adds, here⟩ :=
        (first.parts distinct startDistinct within).mpr ⟨part, made, added'⟩
      exact ⟨both, adds, middle, here, later⟩

theorem each {step : α → Lookahead → Attempt ε Lookahead} {items : List α}
    (steps : ∀ item ∈ items, Separates (step item)) : Separates (Attempt.each step items) := by
  induction items with
  | nil => exact done
  | cons item rest ih =>
      obtain ⟨here, others⟩ := List.forall_mem_cons.mp steps
      exact here.andThen (ih others)

theorem apart (separates : Separates step) {start out sum : Lookahead} (distinct : out.Distinct)
    (startDistinct : start.Distinct) (within : Assoc.keys out ⊆ Assoc.keys start)
    (contained : start.ContainedIn out) :
    step out = .done sum ↔ ∃ part, step start = .done part ∧ Adds out part sum := by
  have fixed : Adds out start out := (accumulates start).fixed "" contained
  rw [← separates.parts distinct startDistinct within]
  constructor
  · exact fun finished => ⟨out, fixed, finished⟩
  · rintro ⟨both, adds, finished⟩
    cases fixed.symm.trans adds
    exact finished

end Separates

theorem addTo_eq_absorb {key typeName : String} (request : Request) {lookahead : Lookahead}
    (present : typeName ∈ Assoc.keys lookahead) :
    addTo key request typeName lookahead = absorb lookahead [(typeName, [(key, request)])] := by
  obtain ⟨requests, found⟩ := Option.isSome_iff_exists.mp ((Assoc.get?_isSome _ _).mpr present)
  simp only [addTo, absorb, found]
  exact (Attempt.andThen_done _).symm

theorem addTo_eq_self {key typeName : String} (request : Request) {lookahead : Lookahead}
    (missing : typeName ∉ Assoc.keys lookahead) :
    addTo key request typeName lookahead = .done lookahead :=
  addTo_eq_done.mpr (.inl ⟨Assoc.get?_eq_none.mpr missing, rfl⟩)

theorem separates_addTo {key typeName : String} {request : Request}
    (good : request.Distinct) : Separates (addTo key request typeName) where
  distinct distinct added := addTo_distinct good distinct added
  keys added := addTo_keys added
  parts {out start sum} distinct startDistinct within := by
    have bothKeys : ∀ {both}, Adds out start both →
        (typeName ∈ Assoc.keys both ↔ typeName ∈ Assoc.keys start) := by
      intro both adds
      rw [Adds, absorb_eq] at adds
      rw [Assoc.mem_keys_of_each_join adds]
      exact or_iff_right_of_imp (within ·)
    have single : Lookahead.Distinct [(typeName, [(key, request)])] := by
      simp [Lookahead.Distinct, Requests.Distinct, Assoc.keys, good]
    by_cases present : typeName ∈ Assoc.keys start
    · have law := associates single out start sum distinct startDistinct
      rw [addTo_eq_absorb request present]
      refine Iff.trans ?_ law
      refine exists_congr fun both => and_congr_right fun adds => ?_
      rw [addTo_eq_absorb request ((bothKeys adds).mpr present), Adds]
    · rw [addTo_eq_self request present]
      constructor
      · rintro ⟨both, adds, added⟩
        rw [addTo_eq_self request (mt (bothKeys adds).mp present)] at added
        cases added
        exact ⟨start, rfl, adds⟩
      · rintro ⟨_, ⟨⟩, adds⟩
        exact ⟨sum, adds, addTo_eq_self request (mt (bothKeys adds).mp present)⟩

theorem separates_addToAll (candidates : List String) (key : String) {request : Request}
    (good : request.Distinct) : Separates (addToAll candidates key request) :=
  (Separates.each fun _ _ => separates_addTo good).of_same_runs
    fun _ _ => Attempt.mapError_eq_done

section Walk

variable (schema : Schema)

theorem separates_underCondition (condition : String)
    {next : List String → Lookahead → Attempt Fault Lookahead}
    (separates : ∀ candidates, Separates (next candidates)) :
    Separates fun state =>
      underCondition schema condition state fun candidates => next candidates state := by
  cases possible : schema.possibleTypes condition with
  | error fault => exact .of_stops fun state finish => by simp [underCondition_eq_done, possible]
  | ok candidates =>
      refine (separates candidates).of_same_runs fun state finish => ?_
      simp [underCondition_eq_done, possible]

theorem addSelection_field_asks {label : Query.FieldLabel} {below : List Unfolded}
    (recorded : ¬ label.isMeta = true) (selects : below ≠ []) (candidate : String)
    (others : List String) :
    ∃ found : Except Fault Lookahead, (∀ lookahead, found = .ok lookahead → lookahead.Distinct) ∧
      ∀ state, addSelection schema (candidate :: others) (.field label below) state =
        withRequest found state fun request =>
          addToAll (candidate :: others) label.key request state := by
  have notEmpty : ¬ below.isEmpty = true := mt List.isEmpty_iff.mp selects
  refine ⟨_, fun lookahead asked => ?_, fun state => by
    rw [addSelection, if_neg recorded, if_neg notEmpty]⟩
  obtain ⟨typeName, _, filled⟩ := bind_eq_ok.mp asked
  have selects : (⟨label, below⟩ : FieldNode).below ≠ [] := selects
  rw [← ofNodes_single schema typeName selects] at filled
  exact ofNodes_distinct filled

theorem separates_addField (label : Query.FieldLabel) (below : List Unfolded)
    (candidates : List String) :
    Separates (addSelection schema candidates (.field label below)) := by
  have nothing : Separates (.done : Lookahead → Attempt Fault Lookahead) := .done
  by_cases omitted : label.isMeta = true
  · exact nothing.of_same_runs fun state finish => by simp [addSelection, omitted]
  by_cases bare : below = []
  · have good : Request.Distinct .leaf := trivial
    refine (separates_addToAll candidates label.key good).of_same_runs fun state finish => ?_
    simp [addSelection, omitted, bare]
  cases candidates with
  | nil => exact nothing.of_same_runs fun state finish => by rw [addSelection_field_nil]
  | cons candidate others =>
      obtain ⟨found, distinct, steps⟩ :=
        addSelection_field_asks schema omitted bare candidate others
      cases found with
      | error fault => exact .of_stops fun state finish => by simp [steps, withRequest]
      | ok lookahead =>
          have good := (distinct lookahead rfl).nested
          refine (separates_addToAll (candidate :: others) label.key good).of_same_runs
            fun state finish => ?_
          rw [steps, withRequest]

theorem separates_addSelections_of {selections : List Unfolded}
    (each : ∀ selection ∈ selections, ∀ candidates,
      Separates (addSelection schema candidates selection)) (candidates : List String) :
    Separates (addSelections schema candidates selections) := by
  rw [addSelections_eq]
  exact .each fun selection member => each selection member candidates

theorem separates_addSelection (selection : Unfolded) (candidates : List String) :
    Separates (addSelection schema candidates selection) := by
  induction selection using Unfolded.induction generalizing candidates with
  | field label below _ => exact separates_addField schema label below candidates
  | inline condition? below ih =>
      cases condition? with
      | none =>
          refine (separates_addSelections_of schema ih candidates).of_same_runs fun _ _ => ?_
          rw [addSelection]
      | some condition =>
          have separates := separates_underCondition schema condition
            (separates_addSelections_of schema ih)
          refine separates.of_same_runs fun _ _ => ?_
          rw [addSelection]
  | spread name condition below ih =>
      have separates := separates_underCondition schema condition
        (separates_addSelections_of schema ih)
      refine separates.of_same_runs fun _ _ => ?_
      rw [addSelection]
  | unknown name => exact .of_stops fun _ _ => by simp [addSelection]

theorem separates_addSelections (selections : List Unfolded) (candidates : List String) :
    Separates (addSelections schema candidates selections) :=
  separates_addSelections_of schema (fun selection _ => separates_addSelection schema selection)
    candidates

theorem separates_addNode (typeName : String) (candidates : List String) (node : FieldNode) :
    Separates (addNode schema typeName candidates node) := by
  by_cases selects : node.below = []
  · exact .of_stops fun _ _ => by simp [addNode_eq_done, selects]
  · refine (separates_addSelections schema node.below candidates).of_same_runs fun _ _ => ?_
    rw [addNode_eq_done, and_iff_right selects]

end Walk

theorem ofTypes_keys_containedIn (out : Lookahead) :
    (ofTypes (Assoc.keys out)).ContainedIn out := by
  refine ofTypes_containedIn_iff.mpr fun typeName listed => ?_
  exact Option.isSome_iff_exists.mp ((Assoc.get?_isSome typeName out).mpr listed)

theorem each_addNode_apart {schema : Schema} {typeName : String} {types : List String}
    {first : List FieldNode} {one : Lookahead} (second : List FieldNode) {sum : Lookahead}
    (possible : schema.possibleTypes typeName = .ok types)
    (made : ofNodes schema typeName first = .ok one) :
    Attempt.each (addNode schema typeName types) second one = .done sum ↔
      ∃ two, ofNodes schema typeName second = .ok two ∧ Adds one two sum := by
  have separates : Separates (Attempt.each (addNode schema typeName types) second) :=
    .each fun node _ => separates_addNode schema typeName types node
  have within : Assoc.keys one ⊆ Assoc.keys (ofTypes types) :=
    fun name member => (ofNodes_attributes possible made).types ▸ member
  simp only [ofNodes_eq_ok_of_possibleTypes possible]
  exact separates.apart (ofNodes_distinct made) (ofTypes_distinct types) within
    (ofTypes_containedIn possible made)

theorem ofNodes_append (schema : Schema) (typeName : String) (first second : List FieldNode) :
    Concur (ofNodes schema typeName (first ++ second)) (do
      let one ← ofNodes schema typeName first
      let two ← ofNodes schema typeName second
      (merge one two).mapError .clash) := by
  intro sum
  simp only [bind_eq_ok, mapError_eq_ok, merge_eq_ok]
  cases possible : schema.possibleTypes typeName with
  | error fault =>
      have nothing : ∀ nodes lookahead, ofNodes schema typeName nodes = .ok lookahead ↔
          schema.isLeaf typeName = .ok true ∧ lookahead = [] := by
        simp [ofNodes_eq_ok, possible]
      simp only [nothing]
      constructor
      · rintro ⟨isLeaf, rfl⟩
        exact ⟨[], ⟨isLeaf, rfl⟩, [], ⟨isLeaf, rfl⟩, rfl⟩
      · rintro ⟨_, ⟨isLeaf, rfl⟩, _, ⟨_, rfl⟩, adds⟩
        cases adds
        exact ⟨isLeaf, rfl⟩
  | ok types =>
      rw [ofNodes_eq_ok_of_possibleTypes possible, Attempt.each_append, Attempt.andThen_eq_done]
      refine exists_congr fun one => ?_
      rw [← ofNodes_eq_ok_of_possibleTypes possible]
      exact and_congr_right fun made => each_addNode_apart second possible made

/-- Adding requests in place is adding them apart and merging: nodes of a field request what two
parts of them do, and selections add to a lookahead what they add to a fresh one for its types. -/
theorem accumulates_apart (schema : Schema) (table : Table) :
    (∀ typeName (first second : List (Query.FieldLabel × List Query.Selection)),
      Concur (ofNodes schema typeName ((first ++ second).map table.node)) (do
        let one ← ofNodes schema typeName (first.map table.node)
        let two ← ofNodes schema typeName (second.map table.node)
        (merge one two).mapError .clash)) ∧
    ∀ candidates selections (out : Lookahead), out.Distinct →
      Concur (addSelections schema candidates (table.unfold selections) out).finished (do
        let part ← (addSelections schema candidates (table.unfold selections)
          (ofTypes (Assoc.keys out))).finished
        (merge out part).mapError .clash) := by
  constructor
  · intro typeName first second
    rw [List.map_append]
    exact ofNodes_append schema typeName _ _
  · intro candidates selections out distinct sum
    have within : Assoc.keys out ⊆ Assoc.keys (ofTypes (Assoc.keys out)) :=
      fun name => mem_keys_ofTypes.mpr
    simp only [bind_eq_ok, mapError_eq_ok, merge_eq_ok, Attempt.finished_eq_ok]
    exact (separates_addSelections schema _ candidates).apart distinct (ofTypes_distinct _) within
      (ofTypes_keys_containedIn out)

def knownFriends : Lookahead :=
  [("Cat", [("friend", .leaf)]), ("Dog", [("friend", .nested [("Cat", [("id", .leaf)])])])]

def dogFields : List (Query.FieldLabel × List Query.Selection) :=
  [(⟨none, "pet", ⟨1, 1⟩⟩, petSelections)]

def catFields : List (Query.FieldLabel × List Query.Selection) :=
  [(⟨none, "pet", ⟨2, 1⟩⟩, [.inline (some "Cat") ⟨2, 1⟩
    [.field ⟨none, "friend", ⟨2, 1⟩⟩ [.field ⟨none, "name", ⟨2, 1⟩⟩ []]]])]

theorem accumulates_apart_of_pets :
    knownFriends.Distinct ∧
      (∃ sum, (addSelections .pets ["Pet", "Dog", "Cat"] (Table.friendly.unfold petSelections)
          knownFriends).finished = .ok sum ∧
        (do
          let part ← (addSelections .pets ["Pet", "Dog", "Cat"]
            (Table.friendly.unfold petSelections) (ofTypes (Assoc.keys knownFriends))).finished
          (merge knownFriends part).mapError .clash) = .ok sum ∧
        sum.keysAt [] "Dog" = ["friend", "name"] ∧
        sum.typesAt [("Dog", "friend")] = ["Cat", "Pet", "Dog"]) ∧
      ∃ sum, ofNodes .pets "Pet" ((dogFields ++ catFields).map Table.friendly.node) = .ok sum ∧
        (do
          let one ← ofNodes .pets "Pet" (dogFields.map Table.friendly.node)
          let two ← ofNodes .pets "Pet" (catFields.map Table.friendly.node)
          (merge one two).mapError .clash) = .ok sum ∧
        sum.keysAt [] "Cat" = ["name", "friend"] := by
  have distinct : knownFriends.Distinct := by
    simp [knownFriends, Lookahead.Distinct, Requests.Distinct, Request.Distinct, Assoc.keys]
  obtain ⟨nodes, selections⟩ := accumulates_apart .pets .friendly
  have added : ∃ sum, (addSelections .pets ["Pet", "Dog", "Cat"]
        (Table.friendly.unfold petSelections) knownFriends).finished = .ok sum ∧
      sum.keysAt [] "Dog" = ["friend", "name"] ∧
      sum.typesAt [("Dog", "friend")] = ["Cat", "Pet", "Dog"] :=
    ⟨_, rfl, by decide, by decide⟩
  have requested : ∃ sum, ofNodes .pets "Pet" ((dogFields ++ catFields).map Table.friendly.node) =
      .ok sum ∧ sum.keysAt [] "Cat" = ["name", "friend"] := ⟨_, rfl, by decide⟩
  obtain ⟨sum, added, contents⟩ := added
  obtain ⟨total, requested, keys⟩ := requested
  exact ⟨distinct, ⟨sum, added, (selections _ _ _ distinct sum).mp added, contents⟩,
    total, requested, (nodes "Pet" dogFields catFields total).mp requested, keys⟩

end FieldLookahead.Lookahead
