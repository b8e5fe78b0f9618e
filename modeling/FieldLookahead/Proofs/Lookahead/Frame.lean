import FieldLookahead.Proofs.Lookahead.Paths
import FieldLookahead.Proofs.Lookahead.Separation

namespace FieldLookahead

/-! What adding requests leaves alone, whether it is finished or stops half-way: no path is lost
or moved, and only types that are candidates of a reached field have their requests changed. -/

namespace Assoc

variable {κ α β ε : Type} [DecidableEq κ]

theorem sublist_flatMap_insert {view : κ × α → List β} {key : κ} {old new : α}
    {entries : List (κ × α)} (found : get? key entries = some old)
    (kept : (view (key, old)).Sublist (view (key, new))) :
    (entries.flatMap view).Sublist ((insert key new entries).flatMap view) := by
  induction entries with
  | nil => cases found
  | cons entry rest ih =>
      obtain ⟨other, value⟩ := entry
      by_cases same : other = key
      · subst same
        simp only [get?, if_true, Option.some.injEq] at found
        subst found
        simp only [insert, if_true, List.flatMap_cons]
        exact kept.append (List.Sublist.refl _)
      · simp only [get?, same, if_false] at found
        simp only [insert, same, if_false, List.flatMap_cons]
        exact (List.Sublist.refl _).append (ih found)

variable {add : κ → α → α → Attempt ε α} {more present : List (κ × α)}

theorem sublist_flatMap_join {view : κ × α → List β} {entry : κ × α}
    (kept : ∀ old, (view (entry.1, old)).Sublist
      (view (entry.1, (add entry.1 old entry.2).state))) :
    (present.flatMap view).Sublist ((join add entry present).state.flatMap view) := by
  rw [join]
  cases found : get? entry.1 present with
  | none =>
      rw [Attempt.state, insert_of_missing found, List.flatMap_append]
      exact List.sublist_append_left _ _
  | some old =>
      rw [Attempt.state_map]
      exact sublist_flatMap_insert found (kept old)

theorem sublist_flatMap_each_join {view : κ × α → List β}
    (kept : ∀ entry ∈ more, ∀ old, (view (entry.1, old)).Sublist
      (view (entry.1, (add entry.1 old entry.2).state))) :
    (present.flatMap view).Sublist
      ((Attempt.each (join add) more present).state.flatMap view) := by
  refine Attempt.state_each
    (fun state : List (κ × α) => (present.flatMap view).Sublist (state.flatMap view)) ?_ (.refl _)
  intro entry member state before
  exact before.trans (sublist_flatMap_join (kept entry member))

theorem Distinct.each_join {Good : α → Prop} (distinct : Distinct Good present)
    (also : ∀ entry ∈ more, Good entry.2)
    (keeps : ∀ entry ∈ more, ∀ old, Good old → Good (add entry.1 old entry.2).state) :
    Distinct Good (Attempt.each (join add) more present).state := by
  refine Attempt.state_each (Distinct Good) ?_ distinct
  intro entry member state distinct
  rw [join]
  cases found : Assoc.get? entry.1 state with
  | none => exact distinct.insert entry.1 (also entry member)
  | some old =>
      rw [Attempt.state_map]
      exact distinct.insert entry.1 (keeps entry member old (distinct.get? found))

end Assoc

theorem Requests.paths_absorb_of {more : Requests}
    (each : ∀ inner ∈ more, ∀ key old, (Request.paths old).Sublist
      (Request.absorb key old inner.2).state.paths) (typeName : String) (present : Requests) :
    (Requests.paths typeName present).Sublist
      (Requests.paths typeName (Requests.absorb present more).state) := by
  rw [Requests.absorb_eq, Requests.paths_eq, Requests.paths_eq]
  refine Assoc.sublist_flatMap_each_join fun entry member old => ?_
  exact (each entry member entry.1 old).map _

theorem Request.paths_absorb (key : String) (present request : Request) :
    present.paths.Sublist (absorb key present request).state.paths := by
  induction request using Request.induction generalizing key present with
  | leaf => cases present <;> exact List.Sublist.refl _
  | nested more ih =>
      cases present with
      | leaf => exact List.Sublist.refl _
      | nested below =>
          rw [absorb, Attempt.state_map, paths, paths, Lookahead.absorb_eq, Lookahead.paths_eq,
            Lookahead.paths_eq]
          refine .cons_cons _ (Assoc.sublist_flatMap_each_join fun entry member old => ?_)
          refine Requests.paths_absorb_of ?_ entry.1 old
          exact fun inner inside key old => ih entry member inner inside key old

theorem Requests.Distinct.absorb_of {present more : Requests} (distinct : present.Distinct)
    (moreDistinct : more.Distinct)
    (each : ∀ inner ∈ more, ∀ key (old : Request), inner.2.Distinct → old.Distinct →
      (Request.absorb key old inner.2).state.Distinct) :
    (Requests.absorb present more).state.Distinct := by
  rw [Requests.distinct_eq] at distinct moreDistinct ⊢
  rw [Requests.absorb_eq]
  exact distinct.each_join moreDistinct.2 fun entry member old good =>
    each entry member entry.1 old (moreDistinct.2 entry member) good

theorem Request.Distinct.absorb (key : String) {present request : Request}
    (distinct : present.Distinct) (also : request.Distinct) :
    (Request.absorb key present request).state.Distinct := by
  induction request using Request.induction generalizing key present with
  | leaf => cases present <;> exact distinct
  | nested more ih =>
      cases present with
      | leaf => exact distinct
      | nested below =>
          have belowDistinct := distinct.nested? rfl
          have moreDistinct := also.nested? rfl
          rw [Request.absorb, Attempt.state_map]
          refine Lookahead.Distinct.nested ?_
          rw [Lookahead.distinct_eq] at belowDistinct moreDistinct ⊢
          rw [Lookahead.absorb_eq]
          refine belowDistinct.each_join moreDistinct.2 fun entry member old good => ?_
          refine good.absorb_of (moreDistinct.2 entry member) ?_
          exact fun inner inside key old innerDistinct good =>
            ih entry member inner inside key good innerDistinct

namespace Lookahead

open Fragment (Unfolded FieldNode Occurrence)

theorem paths_absorb (present more : Lookahead) :
    present.paths.Sublist (absorb present more).state.paths := by
  have kept := Request.paths_absorb "" (.nested present) (.nested more)
  rw [Request.absorb, Attempt.state_map, Request.paths, Request.paths] at kept
  exact kept.of_cons_cons

theorem Distinct.absorb {present more : Lookahead} (distinct : present.Distinct)
    (also : more.Distinct) : (Lookahead.absorb present more).state.Distinct := by
  have kept := distinct.nested.absorb "" also.nested
  rw [Request.absorb, Attempt.state_map] at kept
  exact kept.nested? rfl

/-- From one lookahead to another that requests more, the types have stayed, no path is lost or
moved, and what is requested of a type is unchanged unless it is a candidate of a field that was
reached. -/
structure Framed (schema : Schema) (outside : List String) (occurrences : List Occurrence)
    (start finish : Lookahead) : Prop where
  types : Assoc.keys finish = Assoc.keys start
  distinct : start.Distinct → finish.Distinct
  paths : start.paths.Sublist finish.paths
  others : ∀ typeName, (∀ occurrence ∈ occurrences,
      typeName ∉ candidatesAfter schema outside occurrence.conditions) →
    Assoc.get? typeName finish = Assoc.get? typeName start

namespace Framed

variable {schema : Schema} {outside : List String} {occurrences : List Occurrence}
  {start middle finish : Lookahead}

theorem refl (schema : Schema) (outside : List String) (occurrences : List Occurrence)
    (lookahead : Lookahead) : Framed schema outside occurrences lookahead lookahead where
  types := rfl
  distinct := id
  paths := List.Sublist.refl _
  others _ _ := rfl

theorem trans (first : Framed schema outside occurrences start middle)
    (second : Framed schema outside occurrences middle finish) :
    Framed schema outside occurrences start finish where
  types := second.types.trans first.types
  distinct := second.distinct ∘ first.distinct
  paths := first.paths.trans second.paths
  others typeName absent := (second.others typeName absent).trans (first.others typeName absent)

theorem mono {more : List Occurrence} (framed : Framed schema outside occurrences start finish)
    (within : occurrences ⊆ more) : Framed schema outside more start finish where
  types := framed.types
  distinct := framed.distinct
  paths := framed.paths
  others typeName absent := framed.others typeName fun occurrence member =>
    absent occurrence (within member)

end Framed

section Walk

variable (schema : Schema) (outside : List String)

theorem addTo_framed {occurrence : Occurrence} {key typeName : String} {request : Request}
    (candidate : typeName ∈ candidatesAfter schema outside occurrence.conditions)
    (good : request.Distinct) (lookahead : Lookahead) :
    Framed schema outside [occurrence] lookahead (addTo key request typeName lookahead).state := by
  by_cases present : typeName ∈ Assoc.keys lookahead
  · have absorbed : addTo key request typeName lookahead = _ := addTo_eq_absorb request present
    have single : Lookahead.Distinct [(typeName, [(key, request)])] := by
      simp [Lookahead.Distinct, Requests.Distinct, Assoc.keys, good]
    obtain ⟨requests, found⟩ := Option.isSome_iff_exists.mp ((Assoc.get?_isSome _ _).mpr present)
    have placed : (addTo key request typeName lookahead).state = Assoc.insert typeName
        (Requests.absorb requests [(key, request)]).state lookahead := by
      rw [addTo, found, Attempt.state_map]
    refine ⟨?_, fun distinct => ?_, ?_, fun other absent => ?_⟩
    · rw [placed, Assoc.keys_insert, if_pos present]
    · rw [absorbed]
      exact distinct.absorb single
    · rw [absorbed]
      exact paths_absorb lookahead _
    · rw [placed]
      refine Assoc.get?_insert_of_ne (fun same => ?_) _ _
      exact absent occurrence List.mem_cons_self (same ▸ candidate)
  · rw [addTo_eq_self request present]
    exact .refl schema outside _ lookahead

theorem addToAll_framed (occurrence : Occurrence) (key : String) {request : Request}
    (good : request.Distinct) (lookahead : Lookahead) :
    Framed schema outside [occurrence] lookahead (addToAll
      (candidatesAfter schema outside occurrence.conditions) key request lookahead).state := by
  rw [addToAll, Attempt.state_mapError]
  refine Attempt.state_each (Framed schema outside [occurrence] lookahead) ?_ (.refl _ _ _ _)
  intro typeName candidate state framed
  exact framed.trans (addTo_framed schema outside candidate good state)

theorem addSelections_framed_of {selections : List Unfolded}
    (each : ∀ selection ∈ selections, ∀ crossed lookahead,
      Framed schema outside (selection.reached crossed) lookahead
        (addSelection schema (candidatesAfter schema outside crossed) selection lookahead).state)
    (crossed : List String) (lookahead : Lookahead) :
    Framed schema outside (Unfolded.reachedAll crossed selections) lookahead
      (addSelections schema (candidatesAfter schema outside crossed) selections
        lookahead).state := by
  rw [addSelections_eq]
  refine Attempt.state_each (Framed schema outside _ lookahead) ?_ (.refl _ _ _ _)
  intro selection member state framed
  refine framed.trans ((each selection member crossed state).mono fun occurrence reached => ?_)
  exact Unfolded.mem_reachedAll.mpr ⟨selection, member, reached⟩

theorem underCondition_framed {selections : List Unfolded} {condition : String}
    {crossed : List String} {lookahead : Lookahead}
    (below : Framed schema outside (Unfolded.reachedAll (condition :: crossed) selections) lookahead
      (addSelections schema (candidatesAfter schema outside (condition :: crossed)) selections
        lookahead).state) :
    Framed schema outside (Unfolded.reachedAll (condition :: crossed) selections) lookahead
      (underCondition schema condition lookahead fun inner =>
        addSelections schema inner selections lookahead).state := by
  rw [underCondition]
  cases possible : schema.possibleTypes condition with
  | error fault => exact .refl schema outside _ lookahead
  | ok candidates =>
      rw [candidatesAfter, possible] at below
      exact below

theorem addSelection_framed (selection : Unfolded) (crossed : List String)
    (lookahead : Lookahead) :
    Framed schema outside (selection.reached crossed) lookahead
      (addSelection schema (candidatesAfter schema outside crossed) selection lookahead).state := by
  induction selection using Unfolded.induction generalizing crossed lookahead with
  | field label below _ =>
      by_cases omitted : label.isMeta = true
      · simp only [addSelection, omitted, if_true]
        exact .refl schema outside _ lookahead
      rw [Unfolded.reached, if_neg omitted]
      by_cases bare : below = []
      · subst bare
        have good : Request.Distinct .leaf := trivial
        simp only [addSelection, omitted, List.isEmpty_nil, if_true, Bool.false_eq_true, if_false]
        exact addToAll_framed schema outside ⟨⟨label, []⟩, crossed⟩ label.key good lookahead
      cases candidates : candidatesAfter schema outside crossed with
      | nil =>
          rw [addSelection_field_nil]
          exact .refl schema outside _ lookahead
      | cons candidate others =>
          obtain ⟨found, distinct, steps⟩ :=
            addSelection_field_asks schema omitted bare candidate others
          rw [steps]
          cases found with
          | error fault => exact .refl schema outside _ lookahead
          | ok request =>
              have framed := addToAll_framed schema outside ⟨⟨label, below⟩, crossed⟩ label.key
                (distinct request rfl).nested lookahead
              rw [candidates] at framed
              exact framed
  | inline condition? below ih =>
      cases condition? with
      | none =>
          rw [addSelection, Unfolded.reached]
          exact addSelections_framed_of schema outside ih crossed lookahead
      | some condition =>
          rw [addSelection, Unfolded.reached]
          exact underCondition_framed schema outside
            (addSelections_framed_of schema outside ih (condition :: crossed) lookahead)
  | spread name condition below ih =>
      rw [addSelection, Unfolded.reached]
      exact underCondition_framed schema outside
        (addSelections_framed_of schema outside ih (condition :: crossed) lookahead)
  | unknown name =>
      rw [addSelection]
      exact .refl schema outside _ lookahead

end Walk

/-- Adding what selections request, whether it is finished or stops, frames what it adds by the
fields that the selections reach: types stay, and so do all paths in their order, and a type that
is among no candidates in force at such a field has the same requests as before. -/
theorem addSelections_frame (schema : Schema) (table : Fragment.Table) (candidates : List String)
    (selections : List Query.Selection) (lookahead : Lookahead) :
    ∃ occurrences, table.ReachesAll [] selections occurrences ∧
      Framed schema candidates occurrences lookahead
        (addSelections schema candidates (table.unfold selections) lookahead).state := by
  refine ⟨_, table.reachesAll_unfold [] selections, ?_⟩
  exact addSelections_framed_of schema candidates
    (fun selection _ => addSelection_framed schema candidates selection) [] lookahead

example :
    addSelections .pets ["Dog"] (Fragment.Table.friendly.unfold
        [.field ⟨none, "name", ⟨1, 1⟩⟩ [], .spread "hostile" ⟨1, 1⟩,
          .field ⟨none, "friend", ⟨1, 1⟩⟩ []]) (ofTypes ["Dog", "Cat"]) =
      .stopped [("Dog", [("name", .leaf)]), ("Cat", [])] (.unknownFragment "hostile") := rfl

end Lookahead
end FieldLookahead
