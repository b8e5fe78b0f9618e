import FieldLookahead.Lookahead.Attribution
import FieldLookahead.Proofs.Fragment.Descent
import FieldLookahead.Proofs.Outcome

namespace FieldLookahead.Query

structure Field where
  label : FieldLabel
  below : List Selection

def Field.unfolded (table : Fragment.Table) (field : Field) : Fragment.FieldNode :=
  ⟨field.label, table.unfold field.below⟩

end FieldLookahead.Query

namespace FieldLookahead.Lookahead

open Query Fragment

/-! What selections of a document request, found by following each spread to its fragment. -/

def addField (schema : Schema) (candidates : List String) (label : FieldLabel) (bare : Bool)
    (fill : List String → Lookahead → Attempt Fault Lookahead) (lookahead : Lookahead) :
    Attempt Fault Lookahead :=
  if label.isMeta then .done lookahead
  else if bare then addToAll candidates label.key .leaf lookahead
  else
    match candidates with
    | [] => .done lookahead
    | candidate :: _ =>
      let found := do
        let typeName ← (schema.fieldType candidate label.name).mapError .lookup
        below schema typeName fill
      withRequest found lookahead fun request => addToAll candidates label.key request lookahead

def expandSelections (schema : Schema) (table : Table) (candidates : List String) :
    List Selection → Lookahead → Attempt Fault Lookahead
  | [], lookahead => .done lookahead
  | .field label inside :: rest, lookahead =>
    (addField schema candidates label inside.isEmpty
      (fun inner start => expandSelections schema table inner inside start) lookahead).andThen
      (expandSelections schema table candidates rest)
  | .inline none _ inside :: rest, lookahead =>
    (expandSelections schema table candidates inside lookahead).andThen
      (expandSelections schema table candidates rest)
  | .inline (some condition) _ inside :: rest, lookahead =>
    (underCondition schema condition lookahead fun inner =>
      expandSelections schema table inner inside lookahead).andThen
      (expandSelections schema table candidates rest)
  | .spread name _ :: rest, lookahead =>
    (match _ : table.get? name with
    | none => Attempt.stopped lookahead (Fault.unknownFragment name)
    | some fragment =>
      underCondition schema fragment.condition lookahead fun inner =>
        expandSelections schema table inner fragment.selections lookahead).andThen
      (expandSelections schema table candidates rest)
  termination_by selections => table.weight selections
  decreasing_by
    all_goals first
      | exact Table.weight_lt_of_enters .field
      | exact Table.weight_lt_of_enters .inline
      | exact Table.weight_lt_of_enters .rest
      | exact Table.weight_lt_of_enters (.spread ‹_›)

def expandField (schema : Schema) (table : Table) (typeName : String) (candidates : List String)
    (field : Query.Field) (lookahead : Lookahead) : Attempt Fault Lookahead :=
  if field.below.isEmpty then .stopped lookahead (.missingSelections typeName field.label.name)
  else expandSelections schema table candidates field.below lookahead

/-- What fields of one type request together. -/
def expandFields (schema : Schema) (table : Table) (typeName : String)
    (fields : List Query.Field) : Except Fault Lookahead :=
  below schema typeName fun candidates =>
    Attempt.each (expandField schema table typeName candidates) fields

section Spread

variable {schema : Schema} {table : Table} {candidates : List String} {name : String}
  {position : Syntax.Position} {rest : List Selection} {lookahead : Lookahead}

theorem expandSelections_found {fragment : Query.Fragment}
    (found : table.get? name = some fragment) :
    expandSelections schema table candidates (.spread name position :: rest) lookahead =
      (underCondition schema fragment.condition lookahead fun inner =>
        expandSelections schema table inner fragment.selections lookahead).andThen
        (expandSelections schema table candidates rest) := by
  rw [expandSelections]
  split
  · next missing => simp [found] at missing
  · next other same =>
      cases found.symm.trans same
      rfl

theorem expandSelections_missing (missing : table.get? name = none) :
    expandSelections schema table candidates (.spread name position :: rest) lookahead =
      .stopped lookahead (.unknownFragment name) := by
  rw [expandSelections]
  split
  · rfl
  · next other found => simp [missing] at found

end Spread

theorem addSelection_field (schema : Schema) (candidates : List String) (label : FieldLabel)
    (selections : List Unfolded) (lookahead : Lookahead) :
    addSelection schema candidates (.field label selections) lookahead =
      addField schema candidates label selections.isEmpty
        (fun inner start => addSelections schema inner selections start) lookahead := by
  cases candidates <;> rfl

theorem isEmpty_unfold (table : Table) (selections : List Selection) :
    (table.unfold selections).isEmpty = selections.isEmpty := by
  cases selections <;> rfl

theorem expandSelections_eq (schema : Schema) (table : Table) (candidates : List String)
    (selections : List Selection) (lookahead : Lookahead) :
    expandSelections schema table candidates selections lookahead =
      addSelections schema candidates (table.unfold selections) lookahead := by
  induction selections using table.inductionAll generalizing candidates lookahead with
  | nil => rw [expandSelections, Table.unfold_nil, addSelections]
  | field label inside rest inner there =>
      rw [expandSelections, Table.unfold_cons, Table.unfoldOne_field, addSelections,
        addSelection_field, isEmpty_unfold]
      simp only [inner, funext (there candidates)]
  | inline condition? position inside rest inner there =>
      cases condition? with
      | none =>
          rw [expandSelections, Table.unfold_cons, Table.unfoldOne_inline, addSelections,
            addSelection]
          simp only [inner, funext (there candidates)]
      | some condition =>
          rw [expandSelections, Table.unfold_cons, Table.unfoldOne_inline, addSelections,
            addSelection]
          simp only [inner, funext (there candidates)]
  | spread name position fragment rest found inner there =>
      rw [expandSelections_found found, Table.unfold_cons, Table.unfoldOne_spread,
        Table.unfoldNamed_found found, addSelections, addSelection]
      simp only [inner, funext (there candidates)]
  | missing name position rest missing _ =>
      rw [expandSelections_missing missing, Table.unfold_cons, Table.unfoldOne_spread,
        Table.unfoldNamed_missing missing, addSelections, addSelection]
      rfl

theorem expandField_eq (schema : Schema) (table : Table) (typeName : String)
    (candidates : List String) :
    expandField schema table typeName candidates = fun field =>
      addNode schema typeName candidates (field.unfolded table) := by
  funext field lookahead
  rw [expandField, addNode, Query.Field.unfolded, isEmpty_unfold, expandSelections_eq]

theorem expandFields_eq (schema : Schema) (table : Table) (typeName : String)
    (fields : List Query.Field) :
    expandFields schema table typeName fields =
      ofNodes schema typeName (fields.map (·.unfolded table)) := by
  simp only [expandFields, ofNodes, Attempt.each_map, expandField_eq]

end FieldLookahead.Lookahead
