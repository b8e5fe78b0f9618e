import FieldLookahead.Proofs.Lookahead.Repetition
import FieldLookahead.Proofs.OrderedMap
import FieldLookahead.Proofs.Plan.Walk

namespace FieldLookahead.Plan

open Fragment (Table Unfolded FieldNode Occurrence)

/-! A plan does not depend on how an operation is divided into fragments. Without fragments some
fields come again that a fragment would have given once, which changes no position. -/

variable {table : Table} {schema : Schema} {object : String}

theorem gatherSelections_inlined_of {below : List Unfolded}
    (each : ∀ inner ∈ below, ∀ groups : Groups,
      gatherSelection schema object inner.inlined ⟨groups, []⟩ =
        (selected schema object inner).map fun nodes =>
          ⟨grouped groups (nodes.map FieldNode.inlined), []⟩)
    (groups : Groups) :
    gatherSelections schema object (Unfolded.inlinedAll below) ⟨groups, []⟩ =
      (selectedAll schema object below).map fun nodes =>
        ⟨grouped groups (nodes.map FieldNode.inlined), []⟩ := by
  induction below generalizing groups with
  | nil => rfl
  | cons first rest ih =>
      obtain ⟨here, there⟩ := List.forall_mem_cons.mp each
      rw [Unfolded.inlinedAll, gatherSelections, here, selectedAll]
      cases selected schema object first with
      | error fault => rfl
      | ok nodes =>
          refine (ih there _).trans ?_
          cases selectedAll schema object rest with
          | error fault => rfl
          | ok others =>
              have joined : grouped groups ((nodes ++ others).map FieldNode.inlined) =
                  grouped (grouped groups (nodes.map FieldNode.inlined))
                    (others.map FieldNode.inlined) := by
                rw [List.map_append, grouped_append]
              exact congrArg (fun groups => Except.ok (Gathering.mk groups [])) joined.symm

theorem gatherSelection_inlined (selection : Unfolded) (groups : Groups) :
    gatherSelection schema object selection.inlined ⟨groups, []⟩ =
      (selected schema object selection).map fun nodes =>
        ⟨grouped groups (nodes.map FieldNode.inlined), []⟩ := by
  induction selection using Unfolded.induction generalizing groups with
  | field label below _ =>
      rw [Unfolded.inlined, gatherSelection, selected]
      cases label.isMeta <;> rfl
  | inline condition? below ih =>
      cases condition? with
      | none => exact gatherSelections_inlined_of ih groups
      | some condition =>
          rw [Unfolded.inlined, gatherSelection, selected, gatherSelections_inlined_of ih]
          cases meets schema object condition with
          | error fault => rfl
          | ok answer => cases answer <;> rfl
  | spread name condition below ih =>
      rw [Unfolded.inlined, gatherSelection, selected, gatherSelections_inlined_of ih]
      cases meets schema object condition with
      | error fault => rfl
      | ok answer => cases answer <;> rfl
  | unknown name => rfl

theorem groups_inlined (schema : Schema) (object : String)
    (selectionSets : List (List Unfolded)) :
    groups schema object (selectionSets.map Unfolded.inlinedAll) =
      (selectedAll schema object selectionSets.flatten).map fun nodes =>
        grouped [] (nodes.map FieldNode.inlined) := by
  have flat : (selectionSets.map Unfolded.inlinedAll).flatten =
      Unfolded.inlinedAll selectionSets.flatten := by
    simp only [funext Unfolded.inlinedAll_eq_map, List.map_flatten]
  rw [groups_eq_map, flat, Gathering.empty,
    gatherSelections_inlined_of fun inner _ => gatherSelection_inlined inner]
  cases selectedAll schema object selectionSets.flatten <;> rfl

theorem selectedAll_append (schema : Schema) (object : String) (first second : List Unfolded) :
    selectedAll schema object (first ++ second) = (do
      let nodes ← selectedAll schema object first
      let others ← selectedAll schema object second
      pure (nodes ++ others)) := by
  induction first with
  | nil => cases found : selectedAll schema object second <;> simp [selectedAll, found] <;> rfl
  | cons selection rest ih =>
      rw [List.cons_append, selectedAll, selectedAll, ih]
      simp only [bind_assoc, pure_bind, List.append_assoc]

theorem selectedAll_echoes {seen short long : List (List Unfolded)}
    (echoes : Echoes seen short long) {before : List FieldNode}
    (known : ∀ selections ∈ seen, ∃ nodes,
      selectedAll schema object selections = .ok nodes ∧ nodes ⊆ before) :
    Alike (Echoes before) (selectedAll schema object short.flatten)
      (selectedAll schema object long.flatten) := by
  induction echoes generalizing before with
  | nil => exact .ok .nil
  | @fresh seen short long selections _ ih =>
      rw [List.flatten_cons, List.flatten_cons, selectedAll_append, selectedAll_append]
      refine Alike.bind_same fun nodes found => ?_
      have known : ∀ other ∈ selections :: seen, ∃ inner,
          selectedAll schema object other = .ok inner ∧ inner ⊆ before ++ nodes := by
        refine List.forall_mem_cons.mpr
          ⟨⟨nodes, found, List.subset_append_right _ _⟩, fun other member => ?_⟩
        obtain ⟨inner, foundInner, within⟩ := known other member
        exact ⟨inner, foundInner, List.subset_append_of_subset_left _ within⟩
      exact (ih known).bind fun _ _ _ _ echoes => .ok ((Echoes.refl _ nodes).append echoes)
  | @again seen short long selections member _ ih =>
      obtain ⟨nodes, found, within⟩ := known selections member
      rw [List.flatten_cons, selectedAll_append, found]
      exact (ih known).bind_right fun _ _ echoes =>
        .ok ((Echoes.of_subset within).append (echoes.mono (List.subset_append_left _ _)))

/-- Nodes without fragments that say what some nodes say, possibly again and again. -/
def Retold (nodes others : List FieldNode) : Prop :=
  ∃ long, Echoes [] nodes long ∧ others = long.map FieldNode.inlined

def Holding (groups : Groups) (seen : List FieldNode) : Prop :=
  ∀ node ∈ seen, ∃ nodes, Assoc.get? node.label.key groups = some nodes ∧ node ∈ nodes

theorem Holding.insert {groups : Groups} {seen : List FieldNode} (holding : Holding groups seen)
    (node : FieldNode) :
    Holding (Assoc.insert node.label.key
      ((Assoc.get? node.label.key groups).getD [] ++ [node]) groups) (node :: seen) := by
  intro other member
  by_cases same : node.label.key = other.label.key
  · rw [← same]
    refine ⟨_, Assoc.get?_insert_self _ _ _, ?_⟩
    rcases List.mem_cons.mp member with rfl | member
    · simp
    · obtain ⟨nodes, present, inside⟩ := holding other member
      rw [same, present]
      exact List.mem_append_left _ inside
  · rcases List.mem_cons.mp member with rfl | member
    · exact absurd rfl same
    · obtain ⟨nodes, present, inside⟩ := holding other member
      exact ⟨nodes, (Assoc.get?_insert_of_ne same _ _).trans present, inside⟩

theorem grouped_echoes {seen short long : List FieldNode} (echoes : Echoes seen short long)
    {left right : Groups} (matched : Assoc.Matches (Echoes []) left right)
    (holding : Holding right seen) :
    Assoc.Matches (Echoes []) (grouped left short) (grouped right long) := by
  induction echoes generalizing left right with
  | nil => exact matched
  | @fresh seen short long node _ ih =>
      rw [grouped_cons, grouped_cons]
      refine ih (matched.insert _ ?_) (holding.insert node)
      exact (matched.getD _ .nil).append (.refl _ _)
  | @again seen short long node member _ ih =>
      obtain ⟨nodes, present, inside⟩ := holding node member
      obtain ⟨old, found, echoes⟩ := matched.exists_left present
      have again : Echoes [] (old ++ []) (nodes ++ [node]) :=
        echoes.append (.of_subset (List.cons_subset.mpr ⟨inside, List.nil_subset _⟩))
      rw [List.append_nil] at again
      rw [grouped_cons]
      refine ih (matched.insert_right found ?_) ?_
      · rw [present]
        exact again
      · exact fun other inSeen => holding.insert node other (List.mem_cons_of_mem _ inSeen)

theorem grouped_inlined (nodes : List FieldNode) {left right : Groups}
    (matched : Assoc.Matches (fun nodes others => others = nodes.map FieldNode.inlined)
      left right) :
    Assoc.Matches (fun nodes others => others = nodes.map FieldNode.inlined)
      (grouped left nodes) (grouped right (nodes.map FieldNode.inlined)) := by
  induction nodes generalizing left right with
  | nil => exact matched
  | cons node rest ih =>
      rw [List.map_cons, grouped_cons, grouped_cons]
      refine ih (matched.insert _ ?_)
      have old : (Assoc.get? node.label.key right).getD [] =
          ((Assoc.get? node.label.key left).getD []).map FieldNode.inlined := matched.getD _ rfl
      rw [List.map_append]
      exact congrArg (· ++ [node.inlined]) old

theorem grouped_retold {short long : List FieldNode} (echoes : Echoes [] short long) :
    Assoc.Matches Retold (grouped [] short) (grouped [] (long.map FieldNode.inlined)) := by
  have holding : Holding [] [] := fun _ member => nomatch member
  exact (grouped_echoes echoes .nil holding).trans (grouped_inlined long .nil)

theorem groups_retold {short long : List (List Unfolded)}
    (unfolds : ∀ selections ∈ short, table.Unfolds selections) (echoes : Echoes [] short long) :
    Alike (Assoc.Matches Retold) (groups schema object short)
      (groups schema object (long.map Unfolded.inlinedAll)) := by
  rw [groups_inlined]
  have again : Alike (Echoes []) (selectedAll schema object short.flatten)
      (selectedAll schema object long.flatten) :=
    selectedAll_echoes echoes fun _ member => nomatch member
  refine ((groups_follows unfolds).trans again).map_right ?_
  rintro _ nodes ⟨middle, ⟨added, rfl, first⟩, second⟩
  exact grouped_retold (first.trans second)

structure Entry.Same (entry other : Entry) : Prop where
  parent : other.parent = entry.parent
  field : other.field = entry.field
  type : other.type = entry.type
  lookahead : other.lookahead = entry.lookahead

theorem Entry.ofNodes_same {parent field : String} {type : Schema.TypeReference}
    {nodes others : List FieldNode}
    (same : ∀ typeName, Lookahead.ofNodes schema typeName others =
      Lookahead.ofNodes schema typeName nodes) :
    Alike Entry.Same (Entry.ofNodes schema parent field type nodes)
      (Entry.ofNodes schema parent field type others) := by
  rw [Entry.ofNodes, Entry.ofNodes]
  refine Alike.bind_same fun _ _ => Alike.bind_same fun typeName _ => ?_
  rw [same typeName]
  exact Alike.bind_same fun lookahead _ => .ok ⟨rfl, rfl, rfl, rfl⟩

theorem entryOfGroup_retold {nodes others : List FieldNode} (retold : Retold nodes others) :
    Alike (Option.Rel Entry.Same) (entryOfGroup? schema object nodes)
      (entryOfGroup? schema object others) := by
  obtain ⟨long, echoes, rfl⟩ := retold
  have same := fun typeName => Lookahead.ofNodes_echoes schema typeName echoes
  cases echoes with
  | nil => exact .ok .none
  | again member _ => cases member
  | fresh _ =>
      rw [List.map_cons, entryOfGroup?, entryOfGroup?]
      refine Alike.bind_same fun field _ => ?_
      exact (Entry.ofNodes_same same).bind fun entry other _ _ same => .ok (.some same)

/-- Visits of one position that find the same, up to the nodes. -/
def SameVisit (visit other : Position × Entry) : Prop :=
  other.1 = visit.1 ∧ visit.2.Same other.2

theorem visitsOfGroup_retold {depth : Nat} {above : Position} {key : String}
    {nodes others : List FieldNode} (retold : Retold nodes others)
    (walk : ∀ (position : Position) (inner : String) {long : List (List Unfolded)},
      Echoes [] (nodes.map (·.below)) long →
        Alike (List.Forall₂ SameVisit)
          (positionsBelow schema depth position inner (nodes.map (·.below)))
          (positionsBelow schema depth position inner (long.map Unfolded.inlinedAll))) :
    Alike (List.Forall₂ SameVisit) (visitsOfGroup schema depth above object (key, nodes))
      (visitsOfGroup schema depth above object (key, others)) := by
  refine (entryOfGroup_retold retold).bind fun entry? other? _ _ same => ?_
  cases same with
  | none => exact .ok .nil
  | @some entry other same =>
      obtain ⟨long, echoes, rfl⟩ := retold
      have sets : (long.map FieldNode.inlined).map (·.below) =
          (long.map (·.below)).map Unfolded.inlinedAll := by
        simp only [List.map_map]
        rfl
      simp only [same.type, sets]
      refine Alike.bind_same fun objects _ => ?_
      have itself : List.Forall₂ Eq objects objects := List.forall₂_refl objects
      refine (Alike.mapM itself ?_).bind fun _ _ _ _ visits =>
        .ok (.cons ⟨rfl, same⟩ (List.rel_flatten visits))
      rintro next _ _ rfl
      exact walk _ next (echoes.map (·.below))

theorem positionsBelow_retold (depth : Nat) {above : Position} {object : String}
    {short long : List (List Unfolded)}
    (unfolds : ∀ selections ∈ short, table.Unfolds selections) (echoes : Echoes [] short long) :
    Alike (List.Forall₂ SameVisit) (positionsBelow schema depth above object short)
      (positionsBelow schema depth above object (long.map Unfolded.inlinedAll)) := by
  induction depth generalizing above object short long with
  | zero => exact .ok .nil
  | succ depth ih =>
      rw [positionsBelow_succ, positionsBelow_succ]
      refine (groups_retold unfolds echoes).bind fun found others gathered _ matched => ?_
      have parts : Alike (List.Forall₂ (List.Forall₂ SameVisit))
          (found.mapM (visitsOfGroup schema depth above object))
          (others.mapM (visitsOfGroup schema depth above object)) := by
        refine Alike.mapM matched ?_
        rintro ⟨key, nodes⟩ member ⟨_, otherNodes⟩ ⟨rfl, retold⟩
        exact visitsOfGroup_retold retold fun _ _ => ih (unfolds_of_group unfolds gathered member)
      exact parts.bind fun _ _ _ _ visits => .ok (List.rel_flatten visits)

/-- Plans with the same positions in the same order that find the same there, up to the nodes. -/
structure Same (plan other : Plan) : Prop where
  visits : List.Forall₂ SameVisit plan.visits other.visits
  entries : Assoc.Matches Entry.Same plan.entries.entries other.entries.entries

theorem entriesOf_same {visits others : List (Position × Entry)}
    (same : List.Forall₂ SameVisit visits others) :
    Assoc.Matches Entry.Same (entriesOf visits).entries (entriesOf others).entries := by
  refine OrderedMap.ofList_matches (List.rel_map ?_ same)
  rintro ⟨position, entry⟩ ⟨_, other⟩ ⟨rfl, same⟩
  exact ⟨rfl, same⟩

/-- The document that consists of an operation alone. -/
def alone (operation : Query.Operation) : Query.Document := [.operation operation]

section Chosen

variable {document : Query.Document} {name? : Option String} {operation : Query.Operation}

theorem name?_of_chosen {name : String}
    (chosen : chooseOperation document (some name) = .ok operation) :
    operation.name? = some name := by
  rw [chooseOperation.eq_def] at chosen
  cases operations : document.operations with
  | nil =>
      rw [operations] at chosen
      cases chosen
  | cons first rest =>
      rw [operations] at chosen
      dsimp only at chosen
      split at chosen
      · next found =>
        cases chosen
        simpa using List.find?_some found
      · cases chosen

theorem chooseOperation_alone (chosen : chooseOperation document name? = .ok operation)
    (selections : List Query.Selection) :
    chooseOperation (alone { operation with selections }) name? =
      .ok { operation with selections } := by
  cases name? with
  | none => rfl
  | some name =>
      have named := name?_of_chosen chosen
      simp [chooseOperation, alone, Query.Document.operations, named]

theorem positions_inlined (schema : Schema) (table : Table) (root : String)
    (selections : List Query.Selection) :
    Alike (List.Forall₂ SameVisit) (positions schema root (table.unfold selections))
      (positions schema root (Unfolded.inlinedAll (table.unfold selections))) := by
  rw [positions, positions, Unfolded.heightOfAll_inlinedAll]
  have unfolds : ∀ set ∈ [table.unfold selections], table.Unfolds set :=
    List.forall_mem_singleton.mpr ⟨selections, rfl⟩
  exact positionsBelow_retold _ unfolds (.refl [] [table.unfold selections])

theorem ofDocument_alone (operation : Query.Operation) :
    Table.ofDocument (alone operation) = .ok .empty := rfl

/-- An operation that spreads only defined fragments can do without any, and then has the same
plan or the same fault. -/
theorem ofDocument_inlined (schema : Schema)
    (chosen : chooseOperation document name? = .ok operation)
    (built : Table.ofDocument document = .ok table)
    (defined : ∀ spread ∈ Query.spreadsOfAll operation.selections,
      (table.get? spread.1).isSome = true) :
    (∃ selections, List.Forall₂ table.Inlines operation.selections selections) ∧
      ∀ selections, List.Forall₂ table.Inlines operation.selections selections →
        Alike Same (ofDocument schema document name?)
          (ofDocument schema (alone { operation with selections }) name?) := by
  constructor
  · refine Table.exists_inlinesAll fun selection member => Table.exists_inlines selection ?_
    intro spread inside
    exact defined spread (Table.mem_spreadsOfAll.mpr ⟨selection, member, inside⟩)
  · intro selections inlines
    rw [ofDocument_eq schema chosen built, ofDocument_eq schema
      (chooseOperation_alone chosen selections) (ofDocument_alone _)]
    simp only [Table.unfold_inlines .empty inlines]
    cases schema.root? operation.kind with
    | none => exact .error
    | some root =>
        have walked := positions_inlined schema table root operation.selections
        exact (walked.mapError _).bind fun visits others _ _ same =>
          .ok ⟨same, entriesOf_same same⟩

end Chosen

def friendlyOperation : Query.Operation :=
  ⟨.query, none, [.field ⟨none, "pet", ⟨1, 1⟩⟩ [.spread "friendly" ⟨1, 1⟩,
    .inline (some "Dog") ⟨1, 1⟩ [.spread "friendly" ⟨2, 1⟩], .field ⟨none, "name", ⟨1, 1⟩⟩ []]]⟩

def friendlyDocument : Query.Document :=
  [.operation friendlyOperation, .fragment ⟨"friendly", "Dog", ⟨1, 1⟩,
    [.field ⟨none, "friend", ⟨1, 1⟩⟩ [.field ⟨none, "name", ⟨1, 1⟩⟩ []]]⟩]

theorem table_friendlyDocument : Table.ofDocument friendlyDocument = .ok .friendly := by
  rfl

theorem ofDocument_inlined_of_pets :
    (ofDocument .pets friendlyDocument none).toOption.isSome = true ∧
      ∃ selections, List.Forall₂ Table.friendly.Inlines friendlyOperation.selections selections ∧
        Alike Same (ofDocument .pets friendlyDocument none)
          (ofDocument .pets (alone { friendlyOperation with selections }) none) := by
  refine ⟨by decide +kernel, ?_⟩
  have defined : ∀ spread ∈ Query.spreadsOfAll friendlyOperation.selections,
      (Table.friendly.get? spread.1).isSome = true := by
    decide +kernel
  have chosen : chooseOperation friendlyDocument none = .ok friendlyOperation := rfl
  obtain ⟨⟨selections, inlines⟩, same⟩ :=
    ofDocument_inlined .pets chosen table_friendlyDocument defined
  exact ⟨selections, inlines, same selections inlines⟩

end FieldLookahead.Plan
