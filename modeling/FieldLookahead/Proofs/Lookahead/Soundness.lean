import FieldLookahead.Proofs.Fragment.Rearrangement
import FieldLookahead.Proofs.Lookahead.WellTyped

namespace FieldLookahead

open Fragment (Table Unfolded FieldNode)
open Fragment.Unfolded (Unanimous SameShape)

/-! Type soundness. What is selected below a field of a composite type is looked up without a
fault if it is well typed there, whether or not object types conform to their interfaces. -/

theorem Fragment.Table.unfold_flatMap (table : Table) {α : Type} (items : List α)
    (selections : α → List Query.Selection) :
    table.unfold (items.flatMap selections) =
      items.flatMap fun item => table.unfold (selections item) := by
  simp only [Table.unfold_eq_map, List.map_flatMap]

namespace Lookahead

variable {schema : Schema} {table : Table} {typeName : String}

theorem TypedWithin.node {fields : List (Query.FieldLabel × List Query.Selection)}
    {field : Query.FieldLabel × List Query.Selection} (member : field ∈ fields)
    (selects : field.2 ≠ [])
    (typed : ∀ selection ∈ field.2, WellTyped schema table typeName selection) :
    TypedWithin schema table typeName (table.unfold (fields.flatMap Prod.snd))
      (table.node field) where
  selects := unfold_ne_nil selects
  typed := ⟨field.2, rfl, typed⟩
  within := by
    rw [Table.unfold_flatMap]
    exact fun _ inside => List.mem_flatMap.mpr ⟨field, member, inside⟩

/-- Fields of a composite type that each select well-typed sub-fields have a lookahead, of the
shape that all the sub-fields together ask for, if those under one response key agree on having
sub-fields in turn, at every depth. -/
theorem ofNodes_succeeds_of_wellTyped
    {fields : List (Query.FieldLabel × List Query.Selection)}
    (isComposite : schema.IsComposite typeName) (selects : ∀ field ∈ fields, field.2 ≠ [])
    (typed : ∀ field ∈ fields, ∀ selection ∈ field.2,
      WellTyped schema table typeName selection)
    (unanimous : Unanimous SameShape (table.unfold (fields.flatMap Prod.snd))) :
    ∃ lookahead, ofNodes schema typeName (fields.map table.node) = .ok lookahead ∧
      Lookahead.Fit (table.unfold (fields.flatMap Prod.snd)) lookahead := by
  obtain ⟨types, possible⟩ := isComposite.possibleTypes
  have within : ∀ node ∈ fields.map table.node,
      TypedWithin schema table typeName (table.unfold (fields.flatMap Prod.snd)) node := by
    refine List.forall_mem_map.mpr fun field member => ?_
    exact TypedWithin.node member (selects field member) (typed field member)
  exact ofNodes_fit possible unanimous within

end Lookahead

/-- An interface type and an object type that declares one of its fields with another type and
the other field not at all. -/
def Schema.parrotTypes : Schema.TypeTable :=
  let location : Syntax.Location := ⟨none, ⟨1, 1⟩⟩
  let field (owner name typeName : String) : String × Schema.Field :=
    (name, ⟨name, owner, .named typeName true, ∅, none, location⟩)
  [.object ⟨"Query", none, location⟩ ⟨[], .ofList [field "Query" "bird" "Bird"]⟩,
    .interface ⟨"Bird", none, location⟩
      ⟨[], .ofList [field "Bird" "name" "String", field "Bird" "mate" "Bird"]⟩,
    .object ⟨"Parrot", none, location⟩
      ⟨["Bird"], .ofList [field "Parrot" "name" "Bird"]⟩].foldl .insert .builtins

def Schema.parrots : Schema where
  types := parrotTypes
  resolved := by decide +kernel
  implementations := parrotTypes.implementations
  implementations_eq := rfl
  query := ⟨"Query", by decide +kernel⟩
  mutation? := none
  subscription? := none

def Fragment.Table.caller : Fragment.Table where
  collection := Fragment.Collection.empty.insert
    ⟨⟨"caller", "Parrot", ⟨1, 1⟩,
      [.field ⟨some "caller", "name", ⟨1, 1⟩⟩ [.field ⟨none, "name", ⟨1, 1⟩⟩ []]]⟩, none⟩
  sound := by decide +kernel

namespace Lookahead

def birdFields : List (Query.FieldLabel × List Query.Selection) :=
  [(⟨none, "bird", ⟨1, 1⟩⟩, [.field ⟨none, "name", ⟨1, 1⟩⟩ [], .spread "caller" ⟨1, 1⟩,
      .field ⟨none, "mate", ⟨1, 1⟩⟩ [.field ⟨none, "__typename", ⟨1, 1⟩⟩ []]]),
    (⟨none, "bird", ⟨1, 1⟩⟩, [.inline (some "Bird") ⟨1, 1⟩
      [.field ⟨none, "mate", ⟨1, 1⟩⟩ [.field ⟨none, "name", ⟨1, 1⟩⟩ []]]])]

theorem wellTyped_birdFields : ∀ field ∈ birdFields, ∀ selection ∈ field.2,
    WellTyped .parrots .caller "Bird" selection := by
  have isComposite : Schema.parrots.IsComposite "Bird" := ⟨.interface, rfl, rfl⟩
  have named : WellTyped .parrots .caller "Bird" (.field ⟨none, "name", ⟨1, 1⟩⟩ []) := .leaf rfl rfl
  have mate : ∀ inner, WellTyped .parrots .caller "Bird" inner →
      WellTyped .parrots .caller "Bird" (.field ⟨none, "mate", ⟨1, 1⟩⟩ [inner]) :=
    fun inner typed => .composite rfl isComposite (by simp) (List.forall_mem_singleton.mpr typed)
  have called : ∀ selection ∈ [Query.Selection.field ⟨some "caller", "name", ⟨1, 1⟩⟩
      [.field ⟨none, "name", ⟨1, 1⟩⟩ []]], WellTyped .parrots .caller "Parrot" selection :=
    List.forall_mem_singleton.mpr
      (.composite rfl isComposite (by simp) (List.forall_mem_singleton.mpr named))
  refine List.forall_mem_cons.mpr ⟨List.forall_mem_cons.mpr ⟨named, List.forall_mem_cons.mpr ⟨?_,
    List.forall_mem_singleton.mpr (mate _ (.metaField rfl))⟩⟩, List.forall_mem_singleton.mpr ?_⟩
  · exact .spread rfl ⟨.object, rfl, rfl⟩ called
  · exact List.forall_mem_singleton.mpr
      (.conditioned isComposite (List.forall_mem_singleton.mpr (mate _ named)))

theorem ofNodes_succeeds_of_birds :
    ¬ Schema.parrots.Conforming ∧ Schema.parrots.IsComposite "Bird" ∧
      (∀ field ∈ birdFields, field.2 ≠ []) ∧
      Unanimous SameShape (Table.caller.unfold (birdFields.flatMap Prod.snd)) ∧
      ∃ lookahead, ofNodes .parrots "Bird" (birdFields.map Table.caller.node) = .ok lookahead ∧
        Lookahead.Fit (Table.caller.unfold (birdFields.flatMap Prod.snd)) lookahead := by
  have conforming : ¬ Schema.parrots.Conforming := by decide
  have isComposite : Schema.parrots.IsComposite "Bird" := ⟨.interface, rfl, rfl⟩
  have selects : ∀ field ∈ birdFields, field.2 ≠ [] := by simp [birdFields]
  have unanimous : Unanimous SameShape (Table.caller.unfold (birdFields.flatMap Prod.snd)) := by
    decide
  exact ⟨conforming, isComposite, selects, unanimous,
    ofNodes_succeeds_of_wellTyped isComposite selects wellTyped_birdFields unanimous⟩

end Lookahead
end FieldLookahead
