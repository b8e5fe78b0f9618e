import FieldLookahead.Proofs.Fragment.Documents
import FieldLookahead.Proofs.Lookahead.Completion
import FieldLookahead.Proofs.Plan.Walk

namespace FieldLookahead

/-! Which fragments a walk can miss. Only the selections that it starts from lead to a name that
has no fragment, since all names that fragments spread have one. -/

namespace Fragment

open Query

namespace Unfolded

mutual
/-- The names in a selection that have no fragment, at any depth. -/
def unknowns : Unfolded → List String
  | field _ below => unknownsOfAll below
  | inline _ below => unknownsOfAll below
  | spread _ _ below => unknownsOfAll below
  | unknown name => [name]
  termination_by structural selection => selection

def unknownsOfAll : List Unfolded → List String
  | [] => []
  | selection :: rest => unknowns selection ++ unknownsOfAll rest
  termination_by structural selections => selections
end

theorem mem_unknownsOfAll {selections : List Unfolded} {name : String} :
    name ∈ unknownsOfAll selections ↔ ∃ selection ∈ selections, name ∈ selection.unknowns := by
  induction selections with
  | nil => simp [unknownsOfAll]
  | cons selection rest ih => simp [unknownsOfAll, ih]

theorem unknownsOfAll_subset {selections : List Unfolded} {names : List String} :
    unknownsOfAll selections ⊆ names ↔
      ∀ selection ∈ selections, selection.unknowns ⊆ names := by
  constructor
  · exact fun within selection member name inside =>
      within (mem_unknownsOfAll.mpr ⟨selection, member, inside⟩)
  · intro each name inside
    obtain ⟨selection, member, inside⟩ := mem_unknownsOfAll.mp inside
    exact each selection member inside

theorem unknowns_subset {selections : List Unfolded} {selection : Unfolded}
    (member : selection ∈ selections) : selection.unknowns ⊆ unknownsOfAll selections :=
  unknownsOfAll_subset.mp (List.Subset.refl _) selection member

theorem unknowns_below_subset {occurrence : Occurrence} (selection : Unfolded)
    {crossed : List String} (reached : occurrence ∈ selection.reached crossed) :
    unknownsOfAll occurrence.node.below ⊆ selection.unknowns := by
  induction selection using Unfolded.induction generalizing crossed with
  | field label below _ =>
      obtain ⟨_, rfl⟩ := mem_reached_field.mp reached
      exact List.Subset.refl _
  | inline condition? below ih =>
      have inside : ∃ conditions, occurrence ∈ reachedAll conditions below := by
        cases condition? <;> exact ⟨_, reached⟩
      obtain ⟨conditions, inside⟩ := inside
      obtain ⟨inner, member, reached⟩ := mem_reachedAll.mp inside
      rw [unknowns]
      exact List.Subset.trans (ih inner member reached) (unknowns_subset member)
  | spread name condition below ih =>
      rw [Unfolded.reached] at reached
      obtain ⟨inner, member, reached⟩ := mem_reachedAll.mp reached
      rw [unknowns]
      exact List.Subset.trans (ih inner member reached) (unknowns_subset member)
  | unknown name =>
      rw [Unfolded.reached] at reached
      cases reached

end Unfolded

namespace Table

theorem mem_spreads_of_unknown (table : Table) {name : String} {selections : List Selection}
    (unknown : name ∈ Unfolded.unknownsOfAll (table.unfold selections)) :
    table.get? name = none ∧ ∃ position, (name, position) ∈ spreadsOfAll selections := by
  induction selections using table.inductionAll with
  | nil => cases unknown
  | field label below rest ihBelow ihRest =>
      rw [unfold_cons, unfoldOne_field, Unfolded.unknownsOfAll, Unfolded.unknowns] at unknown
      rw [spreadsOfAll, Selection.spreads]
      rcases List.mem_append.mp unknown with unknown | unknown
      · exact (ihBelow unknown).imp_right (.imp fun _ => List.mem_append_left _)
      · exact (ihRest unknown).imp_right (.imp fun _ => List.mem_append_right _)
  | inline condition? _ below rest ihBelow ihRest =>
      rw [unfold_cons, unfoldOne_inline, Unfolded.unknownsOfAll, Unfolded.unknowns] at unknown
      rw [spreadsOfAll, Selection.spreads]
      rcases List.mem_append.mp unknown with unknown | unknown
      · exact (ihBelow unknown).imp_right (.imp fun _ => List.mem_append_left _)
      · exact (ihRest unknown).imp_right (.imp fun _ => List.mem_append_right _)
  | spread outer position fragment rest found ihFragment ihRest =>
      rw [unfold_cons, unfoldOne_spread, unfoldNamed_found found, Unfolded.unknownsOfAll,
        Unfolded.unknowns] at unknown
      rw [spreadsOfAll]
      rcases List.mem_append.mp unknown with unknown | unknown
      · obtain ⟨missing, position, listed⟩ := ihFragment unknown
        obtain ⟨path, stands⟩ := mem_spreadsOfAll_iff.mp listed
        have fit := Collection.faults_eq_nil_iff.mp table.sound
        have filed := (Collection.get?_eq_some_iff.mp found).1
        obtain ⟨other, defined⟩ := Collection.mem_names_iff.mp
          (Collection.mem_names_iff_exists.mpr
            (fit.complete _ _ ⟨fragment, filed, rfl, position, path, stands⟩))
        cases missing.symm.trans defined
      · exact (ihRest unknown).imp_right (.imp fun _ => List.mem_append_right _)
  | missing outer position rest missing ihRest =>
      rw [unfold_cons, unfoldOne_spread, unfoldNamed_missing missing, Unfolded.unknownsOfAll,
        Unfolded.unknowns] at unknown
      rw [spreadsOfAll, Selection.spreads]
      rcases List.mem_append.mp unknown with unknown | unknown
      · cases List.mem_singleton.mp unknown
        exact ⟨missing, position, by simp⟩
      · exact (ihRest unknown).imp_right (.imp fun _ => List.mem_append_right _)

end Table
end Fragment

namespace Lookahead

open Fragment (Unfolded FieldNode)

def Fault.Within (names : List String) (fault : Fault) : Prop :=
  ∀ name, fault = .unknownFragment name → name ∈ names

abbrev MissesOnly {α : Type} (names : List String) (found : Except Fault α) : Prop :=
  Blames (Fault.Within names) found

theorem missesOnly_lookup {α : Type} (names : List String) (found : Except Schema.LookupFault α) :
    MissesOnly names (found.mapError .lookup) :=
  .mapError fun _ _ impossible => by cases impossible

variable (schema : Schema) {names : List String}

theorem missesOnly_below (typeName : String)
    {fill : List String → Lookahead → Attempt Fault Lookahead}
    (each : ∀ candidates start, MissesOnly names (fill candidates start).finished) :
    MissesOnly names (below schema typeName fill) := by
  refine (missesOnly_lookup names _).bind fun isLeaf _ => ?_
  cases isLeaf with
  | true => exact .ok []
  | false => exact (missesOnly_lookup names _).bind fun candidates _ => each candidates _

theorem missesOnly_addToAll (candidates : List String) (key : String) (request : Request)
    (lookahead : Lookahead) :
    MissesOnly names (addToAll candidates key request lookahead).finished :=
  Attempt.blames_mapError fun _ _ impossible => by cases impossible

theorem missesOnly_addSelections_of {selections : List Unfolded}
    (within : Unfolded.unknownsOfAll selections ⊆ names)
    (each : ∀ selection ∈ selections, selection.unknowns ⊆ names → ∀ candidates lookahead,
      MissesOnly names (addSelection schema candidates selection lookahead).finished)
    (candidates : List String) (lookahead : Lookahead) :
    MissesOnly names (addSelections schema candidates selections lookahead).finished := by
  rw [addSelections_eq]
  refine Attempt.blames_each (fun selection member => ?_) lookahead
  exact each selection member (Unfolded.unknownsOfAll_subset.mp within selection member) candidates

theorem missesOnly_underCondition (condition : String) (lookahead : Lookahead)
    {next : List String → Attempt Fault Lookahead}
    (each : ∀ candidates, MissesOnly names (next candidates).finished) :
    MissesOnly names (underCondition schema condition lookahead next).finished := by
  rw [underCondition]
  cases schema.possibleTypes condition with
  | error fault => exact .error fun _ impossible => by cases impossible
  | ok candidates => exact each candidates

theorem missesOnly_withRequest {found : Except Fault Lookahead} (lookahead : Lookahead)
    {next : Request → Attempt Fault Lookahead} (here : MissesOnly names found)
    (there : ∀ request, MissesOnly names (next request).finished) :
    MissesOnly names (withRequest found lookahead next).finished := by
  cases found with
  | error fault => exact .error (here fault rfl)
  | ok below => exact there (.nested below)

theorem missesOnly_addSelection (selection : Unfolded) (within : selection.unknowns ⊆ names)
    (candidates : List String) (lookahead : Lookahead) :
    MissesOnly names (addSelection schema candidates selection lookahead).finished := by
  induction selection using Unfolded.induction generalizing candidates lookahead with
  | field label below ih =>
      have inside := missesOnly_addSelections_of schema within ih
      by_cases omitted : label.isMeta = true
      · simp only [addSelection, omitted, if_true]
        exact .ok lookahead
      by_cases bare : below.isEmpty = true
      · simp only [addSelection, omitted, bare, if_true, Bool.false_eq_true, if_false]
        exact missesOnly_addToAll candidates label.key .leaf lookahead
      cases candidates with
      | nil =>
          rw [addSelection_field_nil]
          exact .ok lookahead
      | cons candidate others =>
          rw [addSelection, if_neg omitted, if_neg bare]
          refine missesOnly_withRequest lookahead ?_ fun request =>
            missesOnly_addToAll (candidate :: others) label.key request lookahead
          exact (missesOnly_lookup names _).bind fun typeName _ =>
            missesOnly_below schema typeName inside
  | inline condition? below ih =>
      have inside := missesOnly_addSelections_of schema within ih
      cases condition? with
      | none =>
          rw [addSelection]
          exact inside candidates lookahead
      | some condition =>
          rw [addSelection]
          exact missesOnly_underCondition schema condition lookahead (inside · lookahead)
  | spread name condition below ih =>
      have inside := missesOnly_addSelections_of schema within ih
      rw [addSelection]
      exact missesOnly_underCondition schema condition lookahead (inside · lookahead)
  | unknown name =>
      rw [addSelection]
      refine .error fun other same => ?_
      cases same
      exact within List.mem_cons_self

theorem missesOnly_ofNodes (typeName : String) {nodes : List FieldNode}
    (within : ∀ node ∈ nodes, Unfolded.unknownsOfAll node.below ⊆ names) :
    MissesOnly names (ofNodes schema typeName nodes) := by
  refine missesOnly_below schema typeName fun candidates start => ?_
  refine Attempt.blames_each (fun node member lookahead => ?_) start
  rw [addNode]
  split
  · exact .error fun _ impossible => by cases impossible
  · exact missesOnly_addSelections_of schema (within node member)
      (fun selection _ => missesOnly_addSelection schema selection) candidates lookahead

end Lookahead

namespace Plan

open Fragment (Unfolded FieldNode)
open Lookahead (MissesOnly missesOnly_lookup)

variable (schema : Schema) {names : List String}

theorem missesOnly_whenMet (object condition : String) {gathering : Gathering}
    {next : Except Lookahead.Fault Gathering} (there : MissesOnly names next) :
    MissesOnly names (do if ← meets schema object condition then next else pure gathering) := by
  refine (missesOnly_lookup names _).bind fun answer _ => ?_
  cases answer with
  | true => exact there
  | false => exact .ok gathering

theorem missesOnly_gatherSelections_of (object : String) {selections : List Unfolded}
    (within : Unfolded.unknownsOfAll selections ⊆ names)
    (each : ∀ selection ∈ selections, selection.unknowns ⊆ names → ∀ gathering,
      MissesOnly names (gatherSelection schema object selection gathering))
    (gathering : Gathering) :
    MissesOnly names (gatherSelections schema object selections gathering) := by
  induction selections generalizing gathering with
  | nil => exact .ok gathering
  | cons selection rest ih =>
      obtain ⟨here, others⟩ := List.forall_mem_cons.mp each
      obtain ⟨first, later⟩ := List.append_subset.mp within
      rw [gatherSelections]
      exact (here first gathering).bind fun next _ => ih later others next

theorem missesOnly_gatherSelection (object : String) (selection : Unfolded)
    (within : selection.unknowns ⊆ names) (gathering : Gathering) :
    MissesOnly names (gatherSelection schema object selection gathering) := by
  induction selection using Unfolded.induction generalizing gathering with
  | field label below _ => exact .ok _
  | inline condition? below ih =>
      have inside := missesOnly_gatherSelections_of schema object within ih
      cases condition? with
      | none => exact inside gathering
      | some condition => exact missesOnly_whenMet schema object condition (inside gathering)
  | spread name condition below ih =>
      have inside := missesOnly_gatherSelections_of schema object within ih
      rw [gatherSelection]
      split
      · exact .ok gathering
      · exact missesOnly_whenMet schema object condition (inside (gathering.enter name))
  | unknown name =>
      rw [gatherSelection]
      split
      · exact .ok gathering
      · refine .error fun other same => ?_
        cases same
        exact within List.mem_cons_self

theorem missesOnly_groups (object : String) {selectionSets : List (List Unfolded)}
    (within : ∀ selections ∈ selectionSets, Unfolded.unknownsOfAll selections ⊆ names) :
    MissesOnly names (groups schema object selectionSets) := by
  rw [groups_eq_map]
  have together : Unfolded.unknownsOfAll selectionSets.flatten ⊆ names := by
    refine Unfolded.unknownsOfAll_subset.mpr fun selection member => ?_
    obtain ⟨selections, outer, member⟩ := List.mem_flatten.mp member
    exact Unfolded.unknownsOfAll_subset.mp (within selections outer) selection member
  exact (missesOnly_gatherSelections_of schema object together
    (fun selection _ => missesOnly_gatherSelection schema object selection) _).map _

theorem unknowns_of_groups {object : String} {selectionSets : List (List Unfolded)}
    {found : Groups}
    (within : ∀ selections ∈ selectionSets, Unfolded.unknownsOfAll selections ⊆ names)
    (gathered : groups schema object selectionSets = .ok found)
    {group : String × List FieldNode} (member : group ∈ found) :
    ∀ node ∈ group.2, Unfolded.unknownsOfAll node.below ⊆ names := by
  intro node inside
  obtain ⟨occurrence, reached, rfl, _⟩ :=
    (groups_gatheredFrom gathered).origin group member node inside
  obtain ⟨selections, outer, reached⟩ := List.mem_flatMap.mp reached
  obtain ⟨selection, inner, reached⟩ := Unfolded.mem_reachedAll.mp reached
  exact List.Subset.trans (Unfolded.unknowns_below_subset selection reached)
    (Unfolded.unknownsOfAll_subset.mp (within selections outer) selection inner)

theorem missesOnly_entry (object : String) {nodes : List FieldNode}
    (within : ∀ node ∈ nodes, Unfolded.unknownsOfAll node.below ⊆ names) :
    MissesOnly names (entryOfGroup? schema object nodes) := by
  cases nodes with
  | nil => exact .ok none
  | cons first others =>
      refine (missesOnly_lookup names _).bind fun field _ => ?_
      have entry : MissesOnly names
          (Entry.ofNodes schema object first.label.name field.type (first :: others)) := by
        refine (missesOnly_lookup names _).bind fun _ _ => ?_
        refine (missesOnly_lookup names _).bind fun typeName _ => ?_
        exact (Lookahead.missesOnly_ofNodes schema typeName within).bind fun _ _ => .ok _
      exact entry.bind fun made _ => .ok (some made)

theorem missesOnly_positionsBelow (depth : Nat) (above : Position) (object : String)
    {selectionSets : List (List Unfolded)}
    (within : ∀ selections ∈ selectionSets, Unfolded.unknownsOfAll selections ⊆ names) :
    MissesOnly names (positionsBelow schema depth above object selectionSets) := by
  induction depth generalizing above object selectionSets with
  | zero => exact .ok []
  | succ depth ih =>
      rw [positionsBelow_succ]
      refine (missesOnly_groups schema object within).bind fun found gathered => ?_
      refine Blames.bind (.mapM fun group member => ?_) fun parts _ => .ok parts.flatten
      have inside := unknowns_of_groups schema within gathered member
      refine (missesOnly_entry schema object inside).bind fun answer _ => ?_
      cases answer with
      | none => exact .ok []
      | some entry =>
          refine (missesOnly_lookup names _).bind fun objects _ => ?_
          refine Blames.bind (.mapM fun inner _ => ?_) fun _ _ => .ok _
          exact ih _ inner (List.forall_mem_map.mpr inside)

theorem chooseOperation_ne_lookahead {document : Query.Document} {name? : Option String}
    {fault : Lookahead.Fault} : chooseOperation document name? ≠ .error (.lookahead fault) := by
  intro failed
  unfold chooseOperation at failed
  split at failed
  · cases failed
  · split at failed <;> cases failed
  · cases failed
  · cases failed

theorem walked_of_lookahead_fault {document : Query.Document} {name? : Option String}
    {fault : Lookahead.Fault}
    (failed : ofDocument schema document name? = .error (.lookahead fault)) :
    ∃ operation table root, chooseOperation document name? = .ok operation ∧
      Fragment.Table.ofDocument document = .ok table ∧
      positions schema root (table.unfold operation.selections) = .error fault := by
  rcases bind_eq_error.mp failed with unchosen | ⟨operation, chosen, failed⟩
  · exact absurd unchosen chooseOperation_ne_lookahead
  rcases bind_eq_error.mp failed with unbuilt | ⟨table, built, failed⟩
  · obtain ⟨_, _, impossible⟩ := mapError_eq_error.mp unbuilt
    cases impossible
  cases rooted : schema.root? operation.kind with
  | none =>
      rw [rooted] at failed
      cases failed
  | some root =>
      rw [rooted] at failed
      rcases bind_eq_error.mp failed with stopped | ⟨visits, _, impossible⟩
      · obtain ⟨_, stopped, same⟩ := mapError_eq_error.mp stopped
        cases same
        exact ⟨operation, table, root, chosen, mapError_eq_ok.mp built, stopped⟩
      · cases impossible

/-- An operation itself spreads a name that no fragment of the document has, nor spreads. -/
structure Strays (document : Query.Document) (operation : Query.Operation) (name : String) :
    Prop where
  spread : ∃ position path, Query.StandsAt (.spread name position) operation.selections path
  undefined : ∀ fragment ∈ document.fragments, fragment.name ≠ name
  unspread : ∀ outer, ¬ document.Spreads outer name

/-- If there is no plan for want of a fragment, the operation spreads its name outside of all
fragments, and no fragment does. -/
theorem strays_of_unknownFragment {document : Query.Document} {name? : Option String}
    {missing : String}
    (failed : ofDocument schema document name? = .error (.lookahead (.unknownFragment missing))) :
    ∃ operation, chooseOperation document name? = .ok operation ∧
      Strays document operation missing := by
  obtain ⟨operation, table, root, chosen, built, stopped⟩ := walked_of_lookahead_fault schema failed
  have unknown : missing ∈ Unfolded.unknownsOfAll (table.unfold operation.selections) := by
    refine missesOnly_positionsBelow schema _ _ _ ?_ _ stopped missing rfl
    exact List.forall_mem_singleton.mpr (List.Subset.refl _)
  obtain ⟨absent, position, listed⟩ := table.mem_spreads_of_unknown unknown
  obtain ⟨path, stands⟩ := Query.mem_spreadsOfAll_iff.mp listed
  rw [Fragment.Table.get?_of_ofDocument built, Query.Document.fragment?,
    List.find?_eq_none] at absent
  have undefined : ∀ fragment ∈ document.fragments, fragment.name ≠ missing :=
    fun fragment member same => absent fragment member (decide_eq_true same)
  refine ⟨operation, chosen, ⟨position, path, stands⟩, undefined, fun outer spreads => ?_⟩
  have fit := (Fragment.Table.ofDocument_eq_ok.mp built).1
  obtain ⟨fragment, member, same⟩ := fit.complete outer missing spreads
  exact undefined fragment member same

def hostileDocument : Query.Document :=
  let field (name : String) (below : List Query.Selection) : Query.Selection :=
    .field ⟨none, name, ⟨1, 1⟩⟩ below
  [.operation ⟨.query, none, [field "pet" [.spread "loyal" ⟨1, 1⟩,
      .inline (some "Cat") ⟨1, 1⟩ [field "friend" [.spread "hostile" ⟨1, 1⟩]]]]⟩,
    .fragment ⟨"loyal", "Dog", ⟨2, 1⟩, [field "friend" [.spread "named" ⟨2, 1⟩]]⟩,
    .fragment ⟨"named", "Pet", ⟨3, 1⟩, [field "name" []]⟩]

theorem strays_of_hostileDocument :
    ofDocument .pets hostileDocument none = .error (.lookahead (.unknownFragment "hostile")) ∧
      ∃ operation, chooseOperation hostileDocument none = .ok operation ∧
        Strays hostileDocument operation "hostile" := by
  have failed : ofDocument .pets hostileDocument none =
      .error (.lookahead (.unknownFragment "hostile")) := by
    rfl
  exact ⟨failed, strays_of_unknownFragment .pets failed⟩

end Plan
end FieldLookahead
