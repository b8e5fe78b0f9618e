import FieldLookahead.Proofs.OrderedMap
import FieldLookahead.Proofs.Lookahead.TypeNames
import FieldLookahead.Proofs.Plan.Agreement

namespace FieldLookahead

/-! The positions of a plan form a tree, listed in preorder. Their texts tell them apart, so the
map from texts to entries has each visit of the walk in its place. -/

namespace Query

mutual
def Selection.labels : Selection → List FieldLabel
  | .field label below => label :: labelsOfAll below
  | .spread _ _ => []
  | .inline _ _ below => labelsOfAll below
  termination_by structural selection => selection

def labelsOfAll : List Selection → List FieldLabel
  | [] => []
  | selection :: rest => selection.labels ++ labelsOfAll rest
  termination_by structural selections => selections
end

end Query

namespace Fragment

open Query

namespace Table

def labels (table : Table) : List FieldLabel :=
  table.fragments.flatMap fun fragment => labelsOfAll fragment.selections

theorem labelsOfAll_subset {table : Table} {name : String} {fragment : Query.Fragment}
    (found : table.get? name = some fragment) : labelsOfAll fragment.selections ⊆ table.labels := by
  obtain ⟨source, filed, rfl⟩ := Option.map_eq_some_iff.mp found
  have member : source.fragment ∈ table.fragments :=
    List.mem_map_of_mem (List.mem_map_of_mem (OrderedMap.get?_eq_some.mp filed))
  exact fun label inside => List.mem_flatMap.mpr ⟨_, member, inside⟩

def UnfoldsWithin (table : Table) (labels : List FieldLabel) (unfolded : List Unfolded) : Prop :=
  ∃ selections, labelsOfAll selections ⊆ labels ∧ table.unfold selections = unfolded

section Within

variable {table : Table} {labels : List FieldLabel}

mutual
theorem Reaches.within (within : table.labels ⊆ labels) {crossed : List String}
    {selection : Selection} {occurrences : List Occurrence} :
    table.Reaches crossed selection occurrences → selection.labels ⊆ labels →
      ∀ occurrence ∈ occurrences, occurrence.node.label ∈ labels ∧
        table.UnfoldsWithin labels occurrence.node.below
  | .field _, inside, occurrence, member => by
      cases List.mem_singleton.mp member
      obtain ⟨here, below⟩ := List.cons_subset.mp inside
      exact ⟨here, _, below, rfl⟩
  | .metaField _, _, _, member => nomatch member
  | .bare reaches, inside, occurrence, member => reaches.within within inside occurrence member
  | .conditioned reaches, inside, occurrence, member =>
      reaches.within within inside occurrence member
  | .spread found reaches, _, occurrence, member =>
      reaches.within within (List.Subset.trans (labelsOfAll_subset found) within) occurrence
        member
  | .unknown _, _, _, member => nomatch member

theorem ReachesAll.within (within : table.labels ⊆ labels) {crossed : List String}
    {selections : List Selection} {occurrences : List Occurrence} :
    table.ReachesAll crossed selections occurrences → labelsOfAll selections ⊆ labels →
      ∀ occurrence ∈ occurrences, occurrence.node.label ∈ labels ∧
        table.UnfoldsWithin labels occurrence.node.below
  | .nil, _, _, member => nomatch member
  | .cons here there, inside, occurrence, member => by
      rw [labelsOfAll, List.append_subset] at inside
      rcases List.mem_append.mp member with member | member
      · exact here.within within inside.1 occurrence member
      · exact there.within within inside.2 occurrence member
end

theorem UnfoldsWithin.reached (within : table.labels ⊆ labels) {unfolded : List Unfolded}
    (unfolds : table.UnfoldsWithin labels unfolded) {crossed : List String}
    {occurrence : Occurrence} (reached : occurrence ∈ Unfolded.reachedAll crossed unfolded) :
    occurrence.node.label ∈ labels ∧ table.UnfoldsWithin labels occurrence.node.below := by
  obtain ⟨selections, inside, rfl⟩ := unfolds
  exact (table.reachesAll_unfold crossed selections).within within inside occurrence reached

end Within
end Table
end Fragment

namespace Plan

open Fragment (Table Unfolded FieldNode)
open Query (FieldLabel)

variable {schema : Schema} {object key : String} {selectionSets : List (List Unfolded)}
  {position : Position} {entry : Entry}

/-! The texts of positions. -/

/-- A name without the characters that stand between the names of a position's text. -/
def Plain (name : String) : Prop := '/' ∉ name.toList ∧ '.' ∉ name.toList

instance (name : String) : Decidable (Plain name) :=
  inferInstanceAs (Decidable ('/' ∉ name.toList ∧ '.' ∉ name.toList))

def Step.Plain (step : Step) : Prop := Plan.Plain step.object ∧ Plan.Plain step.key

theorem Step.toList_text (step : Step) :
    step.text.toList = step.object.toList ++ '.' :: step.key.toList := by
  simp [Step.text]

theorem Step.Plain.slash_notMem {step : Step} (plain : step.Plain) : '/' ∉ step.text.toList := by
  simp [Step.toList_text, plain.1.1, plain.2.1]

theorem Step.Plain.text_inj {one other : Step} (plain : one.Plain) (otherPlain : other.Plain)
    (same : one.text = other.text) : one = other := by
  rw [← String.toList_inj, Step.toList_text, Step.toList_text,
    List.append_cons_inj_of_notMem plain.1.2 plain.2.2, String.toList_inj,
    String.toList_inj] at same
  obtain ⟨object, _, key⟩ := same
  cases one
  cases other
  simp_all

theorem Position.splitOn_text (plain : ∀ step ∈ position, step.Plain) (long : position ≠ []) :
    position.text.toList.splitOn '/' = position.map fun step => step.text.toList := by
  rw [Position.text, String.toList_intercalate, List.map_map]
  apply List.splitOn_intercalate
  · simpa using fun step member => (plain step member).slash_notMem
  · simpa using long

theorem Position.text_inj {one other : Position} (plain : ∀ step ∈ one, step.Plain)
    (otherPlain : ∀ step ∈ other, step.Plain) (long : one ≠ []) (otherLong : other ≠ [])
    (same : one.text = other.text) : one = other := by
  have texts := splitOn_text plain long
  rw [same, splitOn_text otherPlain otherLong] at texts
  clear same long otherLong
  induction one generalizing other with
  | nil => simpa using texts
  | cons step rest ih =>
      cases other with
      | nil => cases texts
      | cons step' rest' =>
          rw [List.map_cons, List.map_cons, List.cons.injEq, String.toList_inj] at texts
          obtain ⟨here, there⟩ := texts
          obtain ⟨stepPlain, plain⟩ := List.forall_mem_cons.mp plain
          obtain ⟨stepPlain', otherPlain⟩ := List.forall_mem_cons.mp otherPlain
          rw [stepPlain'.text_inj stepPlain here, ih plain otherPlain there]

theorem Position.text_singleton (object key : String) :
    Position.text [⟨object, key⟩] = object ++ "." ++ key :=
  String.intercalate_singleton

theorem Position.text_concat {above : Position} (long : above ≠ []) (object key : String) :
    Position.text (above ++ [⟨object, key⟩]) = above.text ++ "/" ++ (object ++ "." ++ key) := by
  rw [Position.text, List.map_append,
    String.intercalate_append_of_ne_nil (by simpa using long) (by simp)]
  rfl

/-! The steps of a position are object types of the schema and keys of the fields. -/

theorem Selected.within {table : Table} {labels : List FieldLabel}
    (within : table.labels ⊆ labels)
    (unfolds : ∀ selections ∈ selectionSets, table.UnfoldsWithin labels selections)
    (selected : Selected schema object selectionSets key entry) :
    (∃ label ∈ labels, label.key = key) ∧
      ∀ selections ∈ entry.selectionSets, table.UnfoldsWithin labels selections := by
  have each : ∀ node ∈ entry.nodes, node.label.key = key ∧ node.label ∈ labels ∧
      table.UnfoldsWithin labels node.below := by
    intro node member
    obtain ⟨keyed, occurrence, reached, rfl, _⟩ := selected.node node member
    obtain ⟨selections, outer, reached⟩ := List.mem_flatMap.mp reached
    exact ⟨keyed, (unfolds selections outer).reached within reached⟩
  constructor
  · obtain ⟨node, member⟩ := List.exists_mem_of_ne_nil _ selected.nodes_ne_nil
    exact ⟨node.label, (each node member).2.1, (each node member).1⟩
  · intro selections member
    obtain ⟨node, inside, rfl⟩ := List.mem_map.mp member
    exact (each node inside).2.2

theorem Visited.steps {table : Table} {labels : List FieldLabel} (within : table.labels ⊆ labels)
    (unfolds : ∀ selections ∈ selectionSets, table.UnfoldsWithin labels selections)
    (isObject : schema.types.isObject object = true)
    (visited : Visited schema object selectionSets position entry) :
    ∀ step ∈ position, schema.types.isObject step.object = true ∧
      ∃ label ∈ labels, label.key = step.key := by
  induction visited with
  | here selected =>
      exact List.forall_mem_singleton.mpr ⟨isObject, (selected.within within unfolds).1⟩
  | under selected followed member _ ih =>
      obtain ⟨keyed, below⟩ := selected.within within unfolds
      obtain ⟨_, _, _, inner⟩ := exists_possibleTypes followed member
      exact List.forall_mem_cons.mpr ⟨⟨isObject, keyed⟩, ih below inner⟩

theorem Visited.eq_singleton_or_concat
    (visited : Visited schema object selectionSets position entry) :
    (∃ key, position = [⟨object, key⟩] ∧ Selected schema object selectionSets key entry) ∨
      ∃ above aboveEntry inner key objects, position = above ++ [⟨inner, key⟩] ∧
        Visited schema object selectionSets above aboveEntry ∧
        objectsOf schema aboveEntry.type.typeName = .ok objects ∧ inner ∈ objects ∧
        Selected schema inner aboveEntry.selectionSets key entry := by
  induction visited with
  | here selected => exact .inl ⟨_, rfl, selected⟩
  | under selected followed member _ ih =>
      right
      obtain ⟨key, rfl, last⟩ | ⟨above, aboveEntry, inner, key, objects, rfl, visited, rest⟩ := ih
      · exact ⟨_, _, _, key, _, rfl, .here selected, followed, member, last⟩
      · exact ⟨_, aboveEntry, inner, key, objects, rfl, .under selected followed member visited,
          rest⟩

/-! What lies below a position comes right after it. -/

def Apart (first second : List (Position × Entry)) : Prop :=
  ∀ one ∈ first, ∀ other ∈ second, ¬ one.1 <+: other.1 ∧ ¬ other.1 <+: one.1

/-- What lies below a position follows it at once, and is nowhere else. -/
def Contiguous (visits : List (Position × Entry)) : Prop :=
  ∀ before visit after, visits = before ++ visit :: after →
    ∃ inside outside, after = inside ++ outside ∧ (∀ other ∈ inside, visit.1 <+: other.1) ∧
      ∀ other ∈ before ++ outside, ¬ visit.1 <+: other.1

theorem Contiguous.nil : Contiguous [] := by
  intro before visit after split
  simp at split

theorem Contiguous.cons {visit : Position × Entry} {visits : List (Position × Entry)}
    (contiguous : Contiguous visits)
    (below : ∀ other ∈ visits, visit.1 <+: other.1 ∧ ¬ other.1 <+: visit.1) :
    Contiguous (visit :: visits) := by
  intro before other after split
  cases before with
  | nil =>
      cases split
      exact ⟨visits, [], by simp, fun other member => (below other member).1, by simp⟩
  | cons first before =>
      cases split
      obtain ⟨inside, outside, rfl, within, elsewhere⟩ := contiguous before other after rfl
      refine ⟨inside, outside, rfl, within, List.forall_mem_cons.mpr ⟨?_, elsewhere⟩⟩
      exact (below other (by simp)).2

theorem Contiguous.append {first second : List (Position × Entry)}
    (contiguous : Contiguous first) (also : Contiguous second) (apart : Apart first second) :
    Contiguous (first ++ second) := by
  intro before visit after split
  have later : ∀ middle, before = first ++ middle → second = middle ++ visit :: after →
      ∃ inside outside, after = inside ++ outside ∧ (∀ other ∈ inside, visit.1 <+: other.1) ∧
        ∀ other ∈ before ++ outside, ¬ visit.1 <+: other.1 := by
    rintro middle rfl rfl
    obtain ⟨inside, outside, rfl, within, elsewhere⟩ := also middle visit after rfl
    refine ⟨inside, outside, rfl, within, ?_⟩
    rw [List.append_assoc]
    apply List.forall_mem_append.mpr ⟨fun other member => ?_, elsewhere⟩
    exact (apart other member visit (by simp)).2
  obtain ⟨middle, reaches, rest⟩ | ⟨middle, rfl, rest⟩ := List.append_eq_append_iff.mp split
  · exact later middle reaches rest
  · cases middle with
    | nil => exact later [] (by simp) rest.symm
    | cons found middle =>
        cases rest
        obtain ⟨inside, outside, rfl, within, elsewhere⟩ := contiguous before visit middle rfl
        refine ⟨inside, outside ++ second, by simp, within, ?_⟩
        rw [← List.append_assoc]
        apply List.forall_mem_append.mpr ⟨elsewhere, fun other member => ?_⟩
        exact (apart visit (by simp) other member).1

theorem Contiguous.flatten {parts : List (List (Position × Entry))}
    (each : ∀ part ∈ parts, Contiguous part) (apart : parts.Pairwise Apart) :
    Contiguous parts.flatten := by
  induction apart with
  | nil => exact .nil
  | @cons part parts apart _ ih =>
      obtain ⟨here, there⟩ := List.forall_mem_cons.mp each
      refine here.append (ih there) fun one member other inside => ?_
      obtain ⟨part', inParts, inside⟩ := List.mem_flatten.mp inside
      exact apart part' inParts one member other inside

theorem Contiguous.nodup {visits : List (Position × Entry)} (contiguous : Contiguous visits) :
    (visits.map Prod.fst).Nodup := by
  induction visits with
  | nil => exact .nil
  | cons visit rest ih =>
      rw [List.map_cons, List.nodup_cons]
      constructor
      · intro again
        obtain ⟨other, member, same⟩ := List.mem_map.mp again
        obtain ⟨before, after, rfl⟩ := List.append_of_mem member
        obtain ⟨_, _, _, _, elsewhere⟩ := contiguous (visit :: before) other after rfl
        exact elsewhere visit List.mem_cons_self (same ▸ List.prefix_rfl)
      · refine ih fun before other after split => ?_
        obtain ⟨inside, outside, found, within, elsewhere⟩ :=
          contiguous (visit :: before) other after (by rw [split, List.cons_append])
        exact ⟨inside, outside, found, within,
          fun next member => elsewhere next (List.mem_cons_of_mem _ member)⟩

theorem Contiguous.mem_before {visits before after : List (Position × Entry)}
    {visit other : Position × Entry} (contiguous : Contiguous visits)
    (split : visits = before ++ visit :: after) (member : other ∈ visits)
    (below : other.1 <+: visit.1) (differs : other.1 ≠ visit.1) : other ∈ before := by
  rw [split, List.mem_append, List.mem_cons] at member
  obtain earlier | rfl | later := member
  · exact earlier
  · exact absurd rfl differs
  · obtain ⟨front, back, rfl⟩ := List.append_of_mem later
    obtain ⟨_, _, _, _, elsewhere⟩ :=
      contiguous (before ++ visit :: front) other back (by simp [split])
    exact absurd below (elsewhere visit (by simp))

theorem pairwise_apart {ι μ : Type} {above : Position} {name : ι → μ} {mark : Step → μ}
    {items : List ι} {parts : List (List (Position × Entry))}
    (starts : List.Forall₂ (fun item part => ∀ visit ∈ part, ∃ step rest,
      visit.1 = above ++ step :: rest ∧ mark step = name item) items parts)
    (distinct : (items.map name).Nodup) : parts.Pairwise Apart := by
  induction starts with
  | nil => exact .nil
  | cons here there ih =>
      rw [List.map_cons, List.nodup_cons] at distinct
      refine .cons (fun part inParts one member other inside => ?_) (ih distinct.2)
      obtain ⟨item, inItems, start⟩ := exists_of_forall₂_right there inParts
      obtain ⟨step, _, placed, marked⟩ := here one member
      obtain ⟨step', _, placed', marked'⟩ := start other inside
      have differ : step ≠ step' := by
        rintro rfl
        exact distinct.1 (marked.symm.trans marked' ▸ List.mem_map_of_mem inItems)
      rw [placed, placed', List.prefix_append_right_inj, List.prefix_append_right_inj,
        List.cons_prefix_cons, List.cons_prefix_cons]
      exact ⟨fun same => differ same.1, fun same => differ same.1.symm⟩

theorem exists_step_of_walked {depth : Nat} {above : Position} {visits : List (Position × Entry)}
    (walked : positionsBelow schema depth above object selectionSets = .ok visits) :
    ∀ visit ∈ visits, ∃ step rest, visit.1 = above ++ step :: rest ∧ step.object = object := by
  intro visit member
  obtain ⟨steps, placed, visited⟩ := mem_positionsBelow depth walked member
  obtain ⟨key, rest, rfl⟩ := visited.exists_cons
  exact ⟨⟨object, key⟩, rest, placed, rfl⟩

theorem GroupVisits.starts {depth : Nat} {above : Position} {group : String × List FieldNode}
    {part : List (Position × Entry)} {objects : List String}
    {inner : List (List (Position × Entry))}
    (visits : GroupVisits schema depth above object group part entry objects inner) :
    ∀ visit ∈ part, ∃ step rest, visit.1 = above ++ step :: rest ∧ step.key = group.1 := by
  rw [visits.visits]
  refine List.forall_mem_cons.mpr ⟨⟨⟨object, group.1⟩, [], rfl, rfl⟩, fun visit member => ?_⟩
  obtain ⟨visits', inInner, member⟩ := List.mem_flatten.mp member
  obtain ⟨_, _, walked⟩ := exists_of_forall₂_right visits.walked inInner
  obtain ⟨step, rest, placed, _⟩ := exists_step_of_walked walked visit member
  exact ⟨⟨object, group.1⟩, step :: rest, by simpa using placed, rfl⟩

section Walked

variable (built : schema.Built)

include built

theorem nodup_objectsOf {typeName : String} {objects : List String}
    (followed : objectsOf schema typeName = .ok objects) : objects.Nodup := by
  cases objects with
  | nil => exact .nil
  | cons first others =>
      obtain ⟨types, possible, _⟩ := exists_possibleTypes followed List.mem_cons_self
      rw [objectsOf_eq possible] at followed
      rw [← Except.ok.inj followed]
      exact (Schema.possibleTypes_nodup built possible).filter _

theorem GroupVisits.contiguous {depth : Nat} {above : Position}
    {group : String × List FieldNode} {part : List (Position × Entry)} {objects : List String}
    {inner : List (List (Position × Entry))}
    (visits : GroupVisits schema depth above object group part entry objects inner)
    (each : ∀ visits ∈ inner, Contiguous visits) : Contiguous part := by
  have starts : List.Forall₂ (fun next (visits : List (Position × Entry)) => ∀ visit ∈ visits,
      ∃ step rest, visit.1 = above ++ [⟨object, group.1⟩] ++ step :: rest ∧ step.object = next)
      objects inner :=
    visits.walked.imp fun _ _ => exists_step_of_walked
  have apart : inner.Pairwise Apart :=
    pairwise_apart starts (by simpa using nodup_objectsOf built visits.followed)
  rw [visits.visits]
  apply (Contiguous.flatten each apart).cons
  intro other member
  obtain ⟨visits, inInner, member⟩ := List.mem_flatten.mp member
  obtain ⟨_, _, start⟩ := exists_of_forall₂_right starts inInner
  obtain ⟨step, rest, placed, _⟩ := start other member
  rw [placed]
  refine ⟨List.prefix_append _ _, fun back => ?_⟩
  simpa using back.length_le

/-- What a walk visits below a position comes right after it, by induction on the depth: the
groups of a type differ in their keys, and the walks below a group in their object types. -/
theorem contiguous_of_walked {depth : Nat} {above : Position} {visits : List (Position × Entry)}
    (walked : positionsBelow schema depth above object selectionSets = .ok visits) :
    Contiguous visits := by
  induction depth generalizing above object selectionSets visits with
  | zero =>
      cases walked
      exact .nil
  | succ depth ih =>
      obtain ⟨found, parts, gathered, made, rfl⟩ := positionsBelow_succ_eq_ok.mp walked
      have gatheredFrom := groups_gatheredFrom gathered
      have grouped : List.Forall₂ (fun group part => ∃ entry objects inner,
          GroupVisits schema depth above object group part entry objects inner) found parts :=
        ((List.forall₂_and_left _ _).mpr ⟨gatheredFrom.filled, made⟩).imp
          fun _ _ ⟨filled, partFound⟩ => visitsOfGroup_eq_ok filled partFound
      apply Contiguous.flatten
      · intro part inParts
        obtain ⟨group, _, entry, objects, inner, groupVisits⟩ :=
          exists_of_forall₂_right grouped inParts
        refine groupVisits.contiguous built fun visits inInner => ?_
        obtain ⟨_, _, walked⟩ := exists_of_forall₂_right groupVisits.walked inInner
        exact ih walked
      · have starts : List.Forall₂ (fun group (part : List (Position × Entry)) => ∀ visit ∈ part,
            ∃ step rest, visit.1 = above ++ step :: rest ∧ step.key = group.1) found parts :=
          grouped.imp fun _ _ ⟨_, _, _, groupVisits⟩ => groupVisits.starts
        exact pairwise_apart starts gatheredFrom.distinct

end Walked

/-- A position is a key of the root type, or a key of an object type that the value at an earlier
position may have. Its entry tells what the object type declares, and its text is that of the
earlier position with the object type and the key. -/
inductive PlacedAfter (schema : Schema) (root : String) (before : List (Position × Entry)) :
    Position → Entry → Prop
  | root {key : String} {entry : Entry} (isEntry : IsEntryOf schema root entry.nodes entry)
      (text : Position.text [⟨root, key⟩] = root ++ "." ++ key) :
      PlacedAfter schema root before [⟨root, key⟩] entry
  | below {above : Position} {aboveEntry entry : Entry} {types : List String}
      {object key : String} (earlier : (above, aboveEntry) ∈ before)
      (possible : schema.possibleTypes aboveEntry.type.typeName = .ok types)
      (member : object ∈ types) (isObject : schema.types.isObject object = true)
      (isEntry : IsEntryOf schema object entry.nodes entry)
      (text : Position.text (above ++ [⟨object, key⟩]) =
        above.text ++ "/" ++ (object ++ "." ++ key)) :
      PlacedAfter schema root before (above ++ [⟨object, key⟩]) entry

/-- The visits of a plan are the positions of a tree in preorder, and its entries are filed under
the texts of all of them. -/
structure PreOrder (schema : Schema) (plan : Plan) : Prop where
  visited : ∀ position entry, (position, entry) ∈ plan.visits ↔
    Visited schema plan.root [plan.fragments.unfold plan.operation.selections] position entry
  texts : (plan.visits.map (·.1.text)).Nodup
  entries : plan.entries.entries = plan.visits.map fun visit => (visit.1.text, visit.2)
  placed : ∀ before position entry after, plan.visits = before ++ (position, entry) :: after →
    PlacedAfter schema plan.root before position entry
  contiguous : Contiguous plan.visits

variable {document : Query.Document} {name? : Option String} {plan : Plan}

theorem contiguous_visits (built : schema.Built)
    (made : ofDocument schema document name? = .ok plan) : Contiguous plan.visits :=
  contiguous_of_walked built (positions_of_ofDocument made)

theorem placedAfter_of_split (built : schema.Built)
    (made : ofDocument schema document name? = .ok plan) {before after : List (Position × Entry)}
    (split : plan.visits = before ++ (position, entry) :: after) :
    PlacedAfter schema plan.root before position entry := by
  have member : (position, entry) ∈ plan.visits := by simp [split]
  obtain ⟨key, rfl, selected⟩ | ⟨above, aboveEntry, inner, key, objects, rfl, visited, followed,
    inObjects, selected⟩ := ((mem_visits_iff made).mp member).eq_singleton_or_concat
  · exact .root selected.isEntryOf (Position.text_singleton _ _)
  · obtain ⟨types, possible, inTypes, isObject⟩ :=
      exists_possibleTypes followed inObjects
    have long : above ≠ [] := by
      obtain ⟨_, _, rfl⟩ := visited.exists_cons
      exact List.cons_ne_nil _ _
    have earlier : (above, aboveEntry) ∈ before :=
      (contiguous_visits built made).mem_before split ((mem_visits_iff made).mpr visited)
        (List.prefix_append _ _) (by simp)
    exact .below earlier possible inTypes isObject selected.isEntryOf
      (Position.text_concat long _ _)

def labels (plan : Plan) : List FieldLabel :=
  Query.labelsOfAll plan.operation.selections ++ plan.fragments.labels

theorem plain_of_mem_visits (typesPlain : ∀ type ∈ schema.types.types, Plain type.name)
    (keysPlain : ∀ label ∈ plan.labels, Plain label.key)
    (made : ofDocument schema document name? = .ok plan)
    (member : (position, entry) ∈ plan.visits) : ∀ step ∈ position, step.Plain := by
  have unfolds : ∀ selections ∈ [plan.fragments.unfold plan.operation.selections],
      plan.fragments.UnfoldsWithin plan.labels selections :=
    List.forall_mem_singleton.mpr ⟨_, List.subset_append_left _ _, rfl⟩
  have rooted := Schema.TypeTable.isObject_iff.mpr
    (Schema.exists_object_of_root? (root?_of_ofDocument made))
  have steps := ((mem_visits_iff made).mp member).steps (List.subset_append_right _ _) unfolds
    rooted
  intro step inside
  obtain ⟨isObject, label, labelled, keyed⟩ := steps step inside
  obtain ⟨_, _, known⟩ := Schema.TypeTable.isObject_iff.mp isObject
  have named := typesPlain _ (Schema.TypeTable.mem_types_of_get? known)
  rw [Schema.TypeTable.name_of_get? known] at named
  exact ⟨named, keyed ▸ keysPlain label labelled⟩

theorem nodup_texts (built : schema.Built)
    (typesPlain : ∀ type ∈ schema.types.types, Plain type.name)
    (keysPlain : ∀ label ∈ plan.labels, Plain label.key)
    (made : ofDocument schema document name? = .ok plan) :
    (plan.visits.map (·.1.text)).Nodup := by
  have distinct := (contiguous_visits built made).nodup
  have long : ∀ visit ∈ plan.visits, visit.1 ≠ [] := by
    intro visit member
    obtain ⟨_, _, placed⟩ := ((mem_visits_iff made).mp member).exists_cons
    exact placed ▸ List.cons_ne_nil _ _
  have plain : ∀ visit ∈ plan.visits, ∀ step ∈ visit.1, step.Plain :=
    fun visit => plain_of_mem_visits typesPlain keysPlain made
  have mapped : plan.visits.map (·.1.text) = (plan.visits.map Prod.fst).map Position.text := by
    rw [List.map_map]
    rfl
  rw [mapped]
  refine distinct.map_on ?_
  simp only [List.forall_mem_map]
  intro one member other otherMember
  exact Position.text_inj (plain one member) (plain other otherMember) (long one member)
    (long other otherMember)

/-- Where no name has a separator in it, the positions of a plan are those of a tree in preorder,
and no entry replaces another one. -/
theorem preOrder_visits (built : schema.Built)
    (typesPlain : ∀ type ∈ schema.types.types, Plain type.name)
    (keysPlain : ∀ label ∈ plan.labels, Plain label.key)
    (made : ofDocument schema document name? = .ok plan) : PreOrder schema plan where
  visited _ _ := mem_visits_iff made
  texts := nodup_texts built typesPlain keysPlain made
  entries := by
    rw [plan.entries_eq, entriesOf, OrderedMap.entries_ofList]
    rw [Assoc.keys, List.map_map]
    exact nodup_texts built typesPlain keysPlain made
  placed _ _ _ _ := placedAfter_of_split built made
  contiguous := contiguous_visits built made

theorem preOrder_petPlan :
    (Schema.pets.Built ∧ ∀ type ∈ Schema.pets.types.types, Plain type.name) ∧
      (∀ label ∈ petPlan.labels, Plain label.key) ∧
      ofDocument .pets petDocument none = .ok petPlan ∧ PreOrder .pets petPlan := by
  have typesPlain : ∀ type ∈ Schema.pets.types.types, Plain type.name := by decide +kernel
  have keysPlain : ∀ label ∈ petPlan.labels, Plain label.key := by decide +kernel
  exact ⟨⟨Schema.built_pets, typesPlain⟩, keysPlain, ofDocument_pets,
    preOrder_visits Schema.built_pets typesPlain keysPlain ofDocument_pets⟩

end Plan
end FieldLookahead
