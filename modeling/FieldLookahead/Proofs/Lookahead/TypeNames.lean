import FieldLookahead.Proofs.Lookahead.Contents
import FieldLookahead.Proofs.Schema.PossibleTypes

namespace FieldLookahead

open Fragment (FieldNode)

/-! The types that a lookahead has entries for, at every depth. Merging adds up the types of what
is merged, so that no implementer of an interface is lost where an interface comes in. -/

/-- A lookahead that another holds at some depth, itself included. -/
inductive Lookahead.Inside : Lookahead → Lookahead → Prop
  | self (lookahead : Lookahead) : Inside lookahead lookahead
  | under {inner middle outer : Lookahead} {typeName key : String} {requests : Requests}
      (typeMember : (typeName, requests) ∈ outer) (keyMember : (key, .nested middle) ∈ requests)
      (inside : Inside inner middle) : Inside inner outer

def Request.TypesComplete (schema : Schema) (request : Request) : Prop :=
  ∀ below inner, request = .nested below → Lookahead.Inside inner below →
    schema.Complete (Assoc.keys inner)

theorem Request.typesComplete_leaf (schema : Schema) : TypesComplete schema .leaf :=
  fun _ _ impossible => nomatch impossible

theorem Request.typesComplete_nested {schema : Schema} {lookahead : Lookahead} :
    TypesComplete schema (.nested lookahead) ↔
      schema.Complete (Assoc.keys lookahead) ∧
        Assoc.All (fun _ => Assoc.All fun _ => TypesComplete schema) lookahead := by
  constructor
  · intro complete
    refine ⟨complete lookahead lookahead rfl (.self lookahead), ?_⟩
    rintro ⟨typeName, requests⟩ typeMember ⟨key, _⟩ keyMember below inner rfl inside
    exact complete lookahead inner rfl (.under typeMember keyMember inside)
  · rintro ⟨complete, all⟩ below inner same inside
    cases same
    cases inside with
    | self => exact complete
    | under typeMember keyMember inside =>
        exact all _ typeMember _ keyMember _ inner rfl inside

theorem Schema.Complete.congr {schema : Schema} {first second : List String}
    (complete : schema.Complete first) (same : ∀ name, name ∈ second ↔ name ∈ first) :
    schema.Complete second where
  kinds name member := complete.kinds name ((same name).mp member)
  implementers interface member object implements :=
    (same object).mpr (complete.implementers interface ((same interface).mp member) object
      implements)

theorem Request.absorb_typesComplete {schema : Schema} {key : String} {old more new : Request}
    (oldComplete : TypesComplete schema old) (moreComplete : TypesComplete schema more)
    (absorbed : absorb key old more = .done new) : TypesComplete schema new := by
  induction more using Request.induction generalizing key old new with
  | leaf =>
      obtain ⟨_, rfl⟩ := absorb_leaf_eq_done.mp absorbed
      exact typesComplete_leaf schema
  | nested more ih =>
      obtain ⟨below, sum, rfl, rfl, merged⟩ := absorb_nested_eq_done.mp absorbed
      rw [typesComplete_nested] at oldComplete moreComplete ⊢
      rw [Lookahead.absorb_eq] at merged
      constructor
      · refine (oldComplete.1.append moreComplete.1).congr fun name => ?_
        rw [Assoc.mem_keys_of_each_join merged, List.mem_append]
      · refine Assoc.each_join_all ?_ moreComplete.2 oldComplete.2 merged
        intro entry member requests sum complete added
        rw [Requests.absorb_eq] at added
        refine Assoc.each_join_all ?_ (moreComplete.2 entry member) complete added
        intro inner inside request result holds joined
        exact ih entry member inner inside holds (moreComplete.2 entry member inner inside) joined

namespace Lookahead

variable {schema : Schema} {typeName : String} {nodes : List FieldNode} {lookahead : Lookahead}

theorem ofNodes_typesComplete (found : ofNodes schema typeName nodes = .ok lookahead) :
    Request.TypesComplete schema (.nested lookahead) := by
  induction nodes using FieldNode.induction generalizing typeName lookahead with
  | step nodes ih =>
      rw [Request.typesComplete_nested]
      rcases ofNodes_eq_ok.mp found with ⟨_, rfl⟩ | ⟨_, types, possible, _⟩
      · exact ⟨.of_objects (fun _ member => nomatch member), .nil⟩
      · have attributes := ofNodes_attributes possible found
        constructor
        · refine (Schema.possibleTypes_complete possible).congr fun name => ?_
          rw [attributes.types, mem_keys_ofTypes]
        · rintro ⟨candidate, requests⟩ member
          have present := Assoc.get?_of_mem (ofNodes_distinct found).nodup member
          obtain ⟨inside, _⟩ := ofNodes_get? possible found present
          obtain ⟨added, _, contributes, absorbed, again⟩ := attributes.entry candidate []
            ((get?_ofTypes types candidate).trans (if_pos inside))
          rw [present] at again
          cases again
          have each : Assoc.All (fun _ => Request.TypesComplete schema) added := by
            intro entry inAdded
            obtain ⟨occurrence, attributed, contributed⟩ :=
              exists_of_forall₂_right contributes inAdded
            obtain ⟨node, inNodes, reached⟩ :=
              List.mem_flatMap.mp (mem_attributedTo.mp attributed).1
            cases contributed with
            | leaf _ => exact Request.typesComplete_leaf schema
            | nested _ _ _ asked => exact ih node inNodes occurrence reached asked
          rw [Requests.absorb_eq] at absorbed
          refine Assoc.each_join_all ?_ each .nil absorbed
          exact fun entry inAdded _ _ complete added =>
            Request.absorb_typesComplete complete (each entry inAdded) added

theorem keys_insertAll {names : List String} {collected : Lookahead}
    (distinct : (Assoc.keys collected ++ names).Nodup) :
    Assoc.keys (names.foldl (fun types name => Assoc.insert name [] types) collected) =
      Assoc.keys collected ++ names := by
  induction names generalizing collected with
  | nil => rw [List.foldl_nil, List.append_nil]
  | cons name rest ih =>
      have fresh : name ∉ Assoc.keys collected := fun member =>
        (List.nodup_append.mp distinct).2.2 name member name List.mem_cons_self rfl
      have grown : Assoc.keys (Assoc.insert name [] collected) =
          Assoc.keys collected ++ [name] := by
        rw [Assoc.keys_insert, if_neg fresh]
      rw [List.append_cons] at distinct
      rw [List.foldl_cons, ih (grown ▸ distinct), grown, List.append_assoc, List.singleton_append]

theorem keys_ofTypes {names : List String} (distinct : names.Nodup) :
    Assoc.keys (ofTypes names) = names := by
  rw [ofTypes, Assoc.ofList, List.foldl_map]
  exact keys_insertAll distinct

/-- Nodes of a leaf type request nothing. Nodes of a composite type have an entry for each type
that the value may have, in order, and all lookaheads below have complete types. -/
theorem ofNodes_typeNames (built : schema.Built)
    (found : ofNodes schema typeName nodes = .ok lookahead) :
    ∃ kind, schema.kind typeName = .ok kind ∧
      (kind.isLeaf = true ∧ Assoc.keys lookahead = [] ∨
        kind.isComposite = true ∧
          schema.possibleTypes typeName = .ok (Assoc.keys lookahead)) ∧
      ∀ inner, Inside inner lookahead → schema.Complete (Assoc.keys inner) := by
  have complete : ∀ inner, Inside inner lookahead → schema.Complete (Assoc.keys inner) :=
    fun inner inside => ofNodes_typesComplete found lookahead inner rfl inside
  rcases ofNodes_eq_ok.mp found with ⟨leaf, rfl⟩ | ⟨_, types, possible, _⟩
  · obtain ⟨kind, known, isLeaf⟩ := map_eq_ok.mp leaf
    exact ⟨kind, known, .inl ⟨isLeaf, rfl⟩, complete⟩
  · have keys : Assoc.keys lookahead = types := by
      rw [(ofNodes_attributes possible found).types,
        keys_ofTypes (Schema.possibleTypes_nodup built possible)]
    obtain ⟨kind, known, composite⟩ := Schema.isComposite_of_possibleTypes possible
    exact ⟨kind, known, .inr ⟨composite, keys ▸ possible⟩, complete⟩

end Lookahead

namespace Schema

def petDefinitions : Sdl.Document :=
  let field (name typeName : String) : Sdl.Field := ⟨name, .named typeName, [], none, ⟨1, 1⟩⟩
  let fields : List Sdl.Field := [field "name" "String", field "friend" "Pet"]
  [("Query", .object [] [field "pet" "Pet"]), ("Pet", .interface [] fields),
    ("Dog", .object ["Pet"] fields), ("Cat", .object ["Pet"] fields)].map fun (name, body) =>
      .type ⟨name, none, ⟨1, 1⟩, body⟩

theorem built_pets : pets.Built :=
  ⟨[(none, petDefinitions)], ⟨petTypes, ∅, []⟩, rfl, rfl⟩

end Schema

namespace Lookahead

def petLookahead : Lookahead := ("Pet", [("name", .leaf)]) :: petRequests

theorem ofNodes_typeNames_of_pets :
    ofNodes .pets "Pet" [⟨⟨none, "pet", ⟨1, 1⟩⟩, Fragment.Table.friendly.unfold petSelections⟩] =
        .ok petLookahead ∧
      ∃ kind, Schema.pets.kind "Pet" = .ok kind ∧
        (kind.isLeaf = true ∧ Assoc.keys petLookahead = [] ∨
          kind.isComposite = true ∧
            Schema.pets.possibleTypes "Pet" = .ok (Assoc.keys petLookahead)) ∧
        ∀ inner, Inside inner petLookahead → Schema.pets.Complete (Assoc.keys inner) := by
  have found : ofNodes .pets "Pet"
      [⟨⟨none, "pet", ⟨1, 1⟩⟩, Fragment.Table.friendly.unfold petSelections⟩] =
        .ok petLookahead := by
    rfl
  exact ⟨found, ofNodes_typeNames Schema.built_pets found⟩

end Lookahead
end FieldLookahead
