import FieldLookahead.Proofs.Lookahead.Descent
import FieldLookahead.Proofs.Plan.Walk

namespace FieldLookahead.Plan

open Query (Selection)
open Fragment (Table Unfolded FieldNode)

/-! The positions of an operation, found by following each spread to its fragment. -/

/-- Fields of a document under their response keys, with the fragments that have been entered. -/
structure Collected where
  groups : List (String × List Query.Field)
  entered : List String

namespace Collected

def empty : Collected := ⟨[], []⟩

def add (collected : Collected) (field : Query.Field) : Collected :=
  let fields := (Assoc.get? field.label.key collected.groups).getD []
  { collected with
    groups := Assoc.insert field.label.key (fields ++ [field]) collected.groups }

def enter (collected : Collected) (fragment : String) : Collected :=
  { collected with entered := fragment :: collected.entered }

def unfolded (table : Table) (collected : Collected) : Gathering where
  groups := collected.groups.map fun group => (group.1, group.2.map (·.unfolded table))
  entered := collected.entered

theorem unfolded_add (table : Table) (collected : Collected) (field : Query.Field) :
    (collected.add field).unfolded table =
      (collected.unfolded table).addNode (field.unfolded table) := by
  have converted := Assoc.insert_map (List.map (Query.Field.unfolded table)) field.label.key
    ((Assoc.get? field.label.key collected.groups).getD [] ++ [field]) collected.groups
  have nodes : ((Assoc.get? field.label.key collected.groups).getD [] ++ [field]).map
      (Query.Field.unfolded table) =
        (Assoc.get? field.label.key (collected.unfolded table).groups).getD [] ++
          [field.unfolded table] := by
    rw [unfolded, Assoc.get?_map, List.map_append]
    cases Assoc.get? field.label.key collected.groups <;> rfl
  rw [nodes] at converted
  exact congrArg (Gathering.mk · collected.entered) converted.symm

end Collected

/-- Collects from selections. A fragment is entered once. -/
def collectSelections (schema : Schema) (table : Table) (object : String) :
    List Selection → Collected → Except Lookahead.Fault Collected
  | [], collected => .ok collected
  | .field label inside :: rest, collected =>
    collectSelections schema table object rest
      (if label.isMeta then collected else collected.add ⟨label, inside⟩)
  | .inline none _ inside :: rest, collected =>
    collectSelections schema table object inside collected >>=
      collectSelections schema table object rest
  | .inline (some condition) _ inside :: rest, collected =>
    (do
      if ← meets schema object condition then
        collectSelections schema table object inside collected
      else pure collected) >>= collectSelections schema table object rest
  | .spread name _ :: rest, collected =>
    (if name ∈ collected.entered then .ok collected
    else
      match _ : table.get? name with
      | none => .error (Lookahead.Fault.unknownFragment name)
      | some fragment => do
        if ← meets schema object fragment.condition then
          collectSelections schema table object fragment.selections (collected.enter name)
        else pure (collected.enter name)) >>= collectSelections schema table object rest
  termination_by selections => table.weight selections
  decreasing_by
    all_goals first
      | exact Table.weight_lt_of_enters .inline
      | exact Table.weight_lt_of_enters .rest
      | exact Table.weight_lt_of_enters (.spread ‹_›)

section Spread

variable {schema : Schema} {table : Table} {object name : String} {position : Syntax.Position}
  {rest : List Selection} {collected : Collected}

theorem collectSelections_found {fragment : Query.Fragment}
    (found : table.get? name = some fragment) :
    collectSelections schema table object (.spread name position :: rest) collected =
      (if name ∈ collected.entered then .ok collected
      else do
        if ← meets schema object fragment.condition then
          collectSelections schema table object fragment.selections (collected.enter name)
        else pure (collected.enter name)) >>= collectSelections schema table object rest := by
  rw [collectSelections]
  split
  · rfl
  · split
    · next missing => simp [found] at missing
    · next other same =>
        cases found.symm.trans same
        rfl

theorem collectSelections_missing (missing : table.get? name = none) :
    collectSelections schema table object (.spread name position :: rest) collected =
      (if name ∈ collected.entered then .ok collected
      else .error (.unknownFragment name)) >>= collectSelections schema table object rest := by
  rw [collectSelections]
  split
  · rfl
  · split
    · rfl
    · next other found => simp [missing] at found

end Spread

def collect (schema : Schema) (table : Table) (object : String)
    (selectionSets : List (List Selection)) :
    Except Lookahead.Fault (List (String × List Query.Field)) := do
  let collected ← selectionSets.foldlM
    (fun collected selections => collectSelections schema table object selections collected)
    .empty
  pure collected.groups

def Collected.Below (table : Table) (bound : Nat ×ₗ Nat) (collected : Collected) : Prop :=
  ∀ group ∈ collected.groups,
    group.2 ≠ [] ∧ ∀ field ∈ group.2, table.weight field.below < bound

theorem Collected.Below.add {table : Table} {bound : Nat ×ₗ Nat} {collected : Collected}
    (low : collected.Below table bound) {field : Query.Field}
    (light : table.weight field.below < bound) : (collected.add field).Below table bound := by
  intro group member
  rcases Assoc.mem_insert member with rfl | member
  · refine ⟨by simp, fun other inside => ?_⟩
    rcases List.mem_append.mp inside with inside | inside
    · cases present : Assoc.get? field.label.key collected.groups with
      | none =>
          rw [present] at inside
          cases inside
      | some old =>
          rw [present] at inside
          exact (low _ (Assoc.mem_of_get? present)).2 other inside
    · exact List.mem_singleton.mp inside ▸ light
  · exact low group member

theorem collectSelections_below {schema : Schema} {table : Table} {object : String}
    {bound : Nat ×ₗ Nat} {selections : List Selection} {before after : Collected}
    (light : table.weight selections ≤ bound) (low : before.Below table bound)
    (run : collectSelections schema table object selections before = .ok after) :
    after.Below table bound := by
  induction selections using table.inductionAll generalizing before after with
  | nil =>
      rw [collectSelections] at run
      cases run
      exact low
  | field label inside rest _ there =>
      rw [collectSelections] at run
      refine there ((Table.weight_lt_of_enters .rest).le.trans light) ?_ run
      split
      · exact low
      · exact low.add ((Table.weight_lt_of_enters .field).trans_le light)
  | inline condition? position inside rest inner there =>
      have lightInside := (Table.weight_lt_of_enters .inline).le.trans light
      have lightRest := (Table.weight_lt_of_enters .rest).le.trans light
      cases condition? with
      | none =>
          rw [collectSelections] at run
          obtain ⟨between, first, run⟩ := bind_eq_ok.mp run
          exact there lightRest (inner lightInside low first) run
      | some condition =>
          rw [collectSelections] at run
          obtain ⟨between, first, run⟩ := bind_eq_ok.mp run
          obtain ⟨_, _, ⟨_, first⟩ | ⟨_, rfl⟩⟩ := whenMet_eq_ok.mp first
          · exact there lightRest (inner lightInside low first) run
          · exact there lightRest low run
  | spread name position fragment rest found inner there =>
      have lightInside := (Table.weight_lt_of_enters (.spread found)).le.trans light
      rw [collectSelections_found found] at run
      obtain ⟨between, first, run⟩ := bind_eq_ok.mp run
      refine there ((Table.weight_lt_of_enters .rest).le.trans light) ?_ run
      split at first
      · cases first
        exact low
      · obtain ⟨_, _, ⟨_, first⟩ | ⟨_, rfl⟩⟩ := whenMet_eq_ok.mp first
        · have entered : (before.enter name).Below table bound := low
          exact inner lightInside entered first
        · exact low
  | missing name position rest missing there =>
      rw [collectSelections_missing missing] at run
      obtain ⟨between, first, run⟩ := bind_eq_ok.mp run
      refine there ((Table.weight_lt_of_enters .rest).le.trans light) ?_ run
      split at first <;> cases first
      exact low

def heaviest (table : Table) (selectionSets : List (List Selection)) : Nat ×ₗ Nat :=
  (selectionSets.map table.weight).foldr max ⊥

theorem weight_le_heaviest {table : Table} {selections : List Selection}
    {selectionSets : List (List Selection)} (member : selections ∈ selectionSets) :
    table.weight selections ≤ heaviest table selectionSets := by
  induction selectionSets with
  | nil => cases member
  | cons first rest ih =>
      rcases List.mem_cons.mp member with rfl | member
      · exact le_max_left _ _
      · exact (ih member).trans (le_max_right _ _)

theorem heaviest_lt {table : Table} {bound : Nat ×ₗ Nat} {selectionSets : List (List Selection)}
    (filled : selectionSets ≠ [])
    (light : ∀ selections ∈ selectionSets, table.weight selections < bound) :
    heaviest table selectionSets < bound := by
  obtain ⟨selections, member⟩ := List.exists_mem_of_ne_nil _ filled
  have positive : ⊥ < bound := bot_le.trans_lt (light selections member)
  clear filled member
  induction selectionSets with
  | nil => exact positive
  | cons first rest ih =>
      obtain ⟨here, there⟩ := List.forall_mem_cons.mp light
      exact max_lt here (ih there)

theorem collect_below {schema : Schema} {table : Table} {object : String}
    {selectionSets : List (List Selection)} {found : List (String × List Query.Field)}
    (collected : collect schema table object selectionSets = .ok found) :
    ∀ group ∈ found, group.2 ≠ [] ∧
      ∀ field ∈ group.2, table.weight field.below < heaviest table selectionSets := by
  obtain ⟨finish, run, same⟩ := bind_eq_ok.mp collected
  cases same
  exact foldlM_invariant (Collected.Below table (heaviest table selectionSets))
    (fun selections member before after low step =>
      collectSelections_below (weight_le_heaviest member) low step)
    (fun _ member => absurd member List.not_mem_nil) run

theorem heaviest_below_lt {schema : Schema} {table : Table} {object : String}
    {selectionSets : List (List Selection)} {found : List (String × List Query.Field)}
    (collected : collect schema table object selectionSets = .ok found)
    {group : String × List Query.Field} (member : group ∈ found) :
    heaviest table (group.2.map (·.below)) < heaviest table selectionSets := by
  obtain ⟨filled, light⟩ := collect_below collected group member
  exact heaviest_lt (List.map_eq_nil_iff.not.mpr filled) (List.forall_mem_map.mpr light)

def entryOfFields? (schema : Schema) (table : Table) (object : String) :
    List Query.Field → Except Lookahead.Fault (Option Entry)
  | [] => .ok none
  | first :: others => do
    let field ← (schema.field object first.label.name).mapError .lookup
    let typeName ← (schema.referenced field.type).mapError .lookup
    let lookahead ← Lookahead.expandFields schema table typeName (first :: others)
    return some ⟨object, first.label.name, field.type,
      (first :: others).map (·.unfolded table), lookahead⟩

def walkGroup (schema : Schema) (table : Table) (above : Position) (object : String)
    (follow : Position → String → Except Lookahead.Fault (List (Position × Entry)))
    (group : String × List Query.Field) : Except Lookahead.Fault (List (Position × Entry)) := do
  match ← entryOfFields? schema table object group.2 with
  | none => pure []
  | some entry =>
    let position := above ++ [⟨object, group.1⟩]
    let objects ← (objectsOf schema entry.type.typeName).mapError .lookup
    let inner ← objects.mapM (follow position)
    pure ((position, entry) :: inner.flatten)

def walk (schema : Schema) (table : Table) (above : Position) (object : String)
    (selectionSets : List (List Selection)) :
    Except Lookahead.Fault (List (Position × Entry)) :=
  match _ : collect schema table object selectionSets with
  | .error fault => .error fault
  | .ok groups => do
    let parts ← groups.attach.mapM fun group =>
      walkGroup schema table above object (fun position inner =>
        walk schema table position inner (group.1.2.map (·.below))) group.1
    pure parts.flatten
  termination_by heaviest table selectionSets
  decreasing_by exact heaviest_below_lt ‹_› group.2

theorem gatherSelections_unfold (schema : Schema) (table : Table) (object : String)
    (selections : List Selection) (collected : Collected) :
    gatherSelections schema object (table.unfold selections) (collected.unfolded table) =
      (collectSelections schema table object selections collected).map
        (·.unfolded table) := by
  induction selections using table.inductionAll generalizing collected with
  | nil => rw [collectSelections, Table.unfold_nil, gatherSelections]; rfl
  | field label inside rest _ there =>
      rw [collectSelections, Table.unfold_cons, Table.unfoldOne_field, gatherSelections,
        gatherSelection, ← there]
      cases label.isMeta with
      | true => rfl
      | false =>
          simp only [Bool.false_eq_true, if_false, Collected.unfolded_add]
          rfl
  | inline condition? position inside rest inner there =>
      cases condition? with
      | none =>
          rw [collectSelections, Table.unfold_cons, Table.unfoldOne_inline, gatherSelections,
            gatherSelection, inner]
          exact map_bind_eq there
      | some condition =>
          rw [collectSelections, Table.unfold_cons, Table.unfoldOne_inline, gatherSelections,
            gatherSelection, inner]
          refine Eq.trans ?_ (map_bind_eq there)
          cases meets schema object condition with
          | error fault => rfl
          | ok answer => cases answer <;> rfl
  | spread name position fragment rest found inner there =>
      have entering : gatherSelections schema object (table.unfold fragment.selections)
          ((collected.unfolded table).enter name) = _ := inner (collected.enter name)
      rw [collectSelections_found found, Table.unfold_cons, Table.unfoldOne_spread,
        Table.unfoldNamed_found found, gatherSelections, gatherSelection, entering]
      refine Eq.trans (congrArg (· >>= _) ?_) (map_bind_eq there)
      by_cases known : name ∈ collected.entered
      · rw [if_pos known]
        exact if_pos known
      · rw [if_neg known]
        refine (if_neg known).trans ?_
        cases meets schema object fragment.condition with
        | error fault => rfl
        | ok answer => cases answer <;> rfl
  | missing name position rest missing there =>
      rw [collectSelections_missing missing, Table.unfold_cons, Table.unfoldOne_spread,
        Table.unfoldNamed_missing missing, gatherSelections, gatherSelection]
      refine Eq.trans (congrArg (· >>= _) ?_) (map_bind_eq there)
      by_cases known : name ∈ collected.entered
      · rw [if_pos known]
        exact if_pos known
      · rw [if_neg known]
        exact if_neg known

theorem groups_unfold (schema : Schema) (table : Table) (object : String)
    (selectionSets : List (List Selection)) :
    groups schema object (selectionSets.map table.unfold) =
      (collect schema table object selectionSets).map fun groups =>
        groups.map fun group => (group.1, group.2.map (·.unfolded table)) := by
  have folded : ∀ start : Collected,
      (selectionSets.map table.unfold).foldlM
        (fun gathering selections => gatherSelections schema object selections gathering)
        (start.unfolded table) =
      (selectionSets.foldlM
        (fun collected selections => collectSelections schema table object selections collected)
        start).map (·.unfolded table) := by
    induction selectionSets with
    | nil => exact fun _ => rfl
    | cons selections rest ih =>
        intro start
        rw [List.map_cons, List.foldlM_cons, List.foldlM_cons, gatherSelections_unfold]
        exact map_bind_eq ih
  rw [groups, collect, show Gathering.empty = Collected.empty.unfolded table from rfl, folded]
  cases selectionSets.foldlM
    (fun collected selections => collectSelections schema table object selections collected)
    Collected.empty <;> rfl

theorem height_below_lt {schema : Schema} {table : Table} {object : String} {depth : Nat}
    {selectionSets : List (List Selection)} {found : List (String × List Query.Field)}
    (low : ∀ selections ∈ selectionSets,
      Unfolded.heightOfAll (table.unfold selections) < depth + 1)
    (collected : collect schema table object selectionSets = .ok found)
    {group : String × List Query.Field} (member : group ∈ found) :
    ∀ selections ∈ group.2.map (·.below),
      Unfolded.heightOfAll (table.unfold selections) < depth := by
  have gathered := groups_unfold schema table object selectionSets
  rw [collected] at gathered
  refine List.forall_mem_map.mpr fun field inside => ?_
  obtain ⟨occurrence, reached, same, _⟩ := (groups_gatheredFrom gathered).origin _
    (List.mem_map_of_mem member) _ (List.mem_map_of_mem inside)
  obtain ⟨outer, outerMember, reached⟩ := List.mem_flatMap.mp reached
  obtain ⟨selections, member, rfl⟩ := List.mem_map.mp outerMember
  have shorter := Unfolded.height_below_lt_of_mem_reachedAll _ reached
  rw [same] at shorter
  exact Nat.lt_of_lt_of_le shorter (Nat.le_of_lt_succ (low selections member))

theorem entryOfGroup?_unfolded (schema : Schema) (table : Table) (object : String)
    (fields : List Query.Field) :
    entryOfGroup? schema object (fields.map (·.unfolded table)) =
      entryOfFields? schema table object fields := by
  cases fields with
  | nil => rfl
  | cons first others =>
      have label : (first.unfolded table).label = first.label := rfl
      simp only [entryOfGroup?, Entry.ofNodes, entryOfFields?, Lookahead.expandFields_eq,
        List.map_cons, label, bind_assoc, pure_bind]
      cases schema.field object first.label.name <;> rfl

theorem visitsOfGroup_eq_walkGroup {schema : Schema} {table : Table} {depth : Nat}
    {above : Position} {object : String} {group : String × List Query.Field}
    {follow : Position → String → Except Lookahead.Fault (List (Position × Entry))}
    (follows : ∀ position inner, positionsBelow schema depth position inner
      ((group.2.map (·.below)).map table.unfold) = follow position inner) :
    visitsOfGroup schema depth above object (group.1, group.2.map (·.unfolded table)) =
      walkGroup schema table above object follow group := by
  have sets : (group.2.map (·.unfolded table)).map (·.below) =
      (group.2.map (·.below)).map table.unfold := by
    rw [List.map_map, List.map_map]
    rfl
  rw [visitsOfGroup, walkGroup, entryOfGroup?_unfolded]
  refine bind_congr fun answer => ?_
  cases answer with
  | none => rfl
  | some entry => simp only [sets, follows]

/-- A depth greater than the height of the selections does not limit a walk. -/
theorem positionsBelow_eq_walk {schema : Schema} {table : Table} {depth : Nat} {above : Position}
    {object : String} {selectionSets : List (List Selection)}
    (low : ∀ selections ∈ selectionSets, Unfolded.heightOfAll (table.unfold selections) < depth) :
    positionsBelow schema depth above object (selectionSets.map table.unfold) =
      walk schema table above object selectionSets := by
  induction depth generalizing above object selectionSets with
  | zero =>
      cases selectionSets with
      | nil =>
          rw [walk]
          rfl
      | cons first rest => exact absurd (low first List.mem_cons_self) (Nat.not_lt_zero _)
  | succ depth ih =>
      rw [positionsBelow_succ, groups_unfold, walk]
      split
      · next fault failed => rw [failed]; rfl
      · next found collected =>
          rw [collected]
          have parts : ((found.map fun group => (group.1, group.2.map (·.unfolded table))).mapM
              (visitsOfGroup schema depth above object)) = _ :=
            List.mapM_map.trans (mapM_attach_eq fun group =>
              visitsOfGroup_eq_walkGroup fun position inner =>
                ih (height_below_lt low collected group.2))
          exact congrArg (fun made => made >>= fun parts : List (List (Position × Entry)) =>
            pure parts.flatten) parts

/-- What the sub-selections of fields request, what selections add to a lookahead, how they are
grouped for an object type and which positions they have can all be found by following each
spread to its fragment, for whatever document and schema. Each descent leads from selections to
selections below which there are fewer fragments, or as many and then fewer selections, so that
it comes to an end, and no limit to its depth cuts anything off. -/
theorem descent_terminates (schema : Schema) (table : Table) :
    WellFounded table.Enters ∧
    (∀ inner outer, table.Enters inner outer → table.weight inner < table.weight outer) ∧
    (∀ typeName fields, Lookahead.expandFields schema table typeName fields =
      Lookahead.ofNodes schema typeName (fields.map (·.unfolded table))) ∧
    (∀ candidates selections lookahead,
      Lookahead.expandSelections schema table candidates selections lookahead =
        Lookahead.addSelections schema candidates (table.unfold selections) lookahead) ∧
    (∀ object selectionSets, groups schema object (selectionSets.map table.unfold) =
      (collect schema table object selectionSets).map fun groups =>
        groups.map fun group => (group.1, group.2.map (·.unfolded table))) ∧
    ∀ above object selectionSets extra,
      positionsBelow schema (Unfolded.heightOfAll (table.unfold selectionSets.flatten) + 1 + extra)
          above object (selectionSets.map table.unfold) =
        walk schema table above object selectionSets := by
  refine ⟨table.wellFounded_enters, fun _ _ => Table.weight_lt_of_enters,
    Lookahead.expandFields_eq schema table, Lookahead.expandSelections_eq schema table,
    groups_unfold schema table, fun above object selectionSets extra =>
      positionsBelow_eq_walk fun selections member => ?_⟩
  have lower : Unfolded.heightOfAll (table.unfold selections) ≤
      Unfolded.heightOfAll (table.unfold selectionSets.flatten) := by
    refine Unfolded.heightOfAll_le_iff.mpr fun selection inside => ?_
    refine Unfolded.heightOfAll_le_iff.mp (Nat.le_refl _) selection ?_
    rw [Table.unfold_eq_map] at inside ⊢
    exact List.map_subset _ (fun _ => List.mem_flatten_of_mem member) inside
  omega

end FieldLookahead.Plan
