import FieldLookahead.Proofs.Fragment.Reached

namespace FieldLookahead

/-! Selections that differ in the order and repetition of what they select, at any depth. They
reach the same fields after the same conditions. -/

namespace Query

mutual
/-- Selections that select the same. Where they stand in a document does not matter. -/
inductive Selection.Same : Selection → Selection → Prop
  | field {label other : FieldLabel} {below otherBelow : List Selection}
      (key : other.key = label.key) (name : other.name = label.name)
      (forth : Within below otherBelow) (back : Within otherBelow below) :
      Selection.Same (.field label below) (.field other otherBelow)
  | spread {fragment : String} {position otherPosition : Syntax.Position} :
      Selection.Same (.spread fragment position) (.spread fragment otherPosition)
  | inline {condition? : Option String} {position otherPosition : Syntax.Position}
      {below otherBelow : List Selection} (forth : Within below otherBelow)
      (back : Within otherBelow below) :
      Selection.Same (.inline condition? position below)
        (.inline condition? otherPosition otherBelow)

inductive Within : List Selection → List Selection → Prop
  | nil {others : List Selection} : Within [] others
  | cons {selection twin : Selection} {rest others : List Selection} (member : twin ∈ others)
      (same : Selection.Same selection twin) (there : Within rest others) :
      Within (selection :: rest) others
end

def Selection.ofField (field : FieldLabel × List Selection) : Selection :=
  .field field.1 field.2

/-- Selection sets that are equal as sets. -/
structure SameSelections (selections others : List Selection) : Prop where
  forth : Within selections others
  back : Within others selections

theorem within_iff_exists_twin {selections others : List Selection} :
    Within selections others ↔
      ∀ selection ∈ selections, ∃ twin ∈ others, Selection.Same selection twin := by
  constructor
  · intro within
    induction selections with
    | nil => exact fun _ member => nomatch member
    | cons first rest ih =>
        cases within with
        | cons member same there =>
            exact List.forall_mem_cons.mpr ⟨⟨_, member, same⟩, ih there⟩
  · intro twins
    induction selections with
    | nil => exact .nil
    | cons first rest ih =>
        obtain ⟨⟨twin, member, same⟩, others⟩ := List.forall_mem_cons.mp twins
        exact .cons member same (ih others)

theorem SameSelections.symm {selections others : List Selection}
    (same : SameSelections selections others) : SameSelections others selections :=
  ⟨same.back, same.forth⟩

theorem Selection.Same.symm {selection other : Selection} (same : Same selection other) :
    Same other selection := by
  cases same with
  | field key name forth back => exact .field key.symm name.symm back forth
  | spread => exact .spread
  | inline forth back => exact .inline back forth

theorem FieldLabel.isMeta_eq_of_name_eq {label other : FieldLabel}
    (name : other.name = label.name) : other.isMeta = label.isMeta := by
  rw [isMeta, isMeta, name]

end Query

namespace Fragment

open Query

/-- Tables of the same fragments, with the same conditions and the same selections. -/
structure Table.Same (left right : Table) : Prop where
  names : ∀ name, (left.get? name).isSome = (right.get? name).isSome
  fragments : ∀ name fragment other, left.get? name = some fragment →
    right.get? name = some other → other.condition = fragment.condition ∧
      SameSelections fragment.selections other.selections

def Table.node (table : Table) (field : FieldLabel × List Selection) : FieldNode :=
  ⟨field.1, table.unfold field.2⟩

/-- Fields that answer under one key with one name, and select the same below. -/
structure FieldNode.Same (left right : Table) (node other : FieldNode) : Prop where
  key : other.label.key = node.label.key
  name : other.label.name = node.label.name
  below : ∃ below otherBelow, node.below = left.unfold below ∧
    other.below = right.unfold otherBelow ∧ SameSelections below otherBelow

theorem FieldNode.Same.symm {left right : Table} {node other : FieldNode}
    (same : FieldNode.Same left right node other) : FieldNode.Same right left other node where
  key := same.key.symm
  name := same.name.symm
  below := by
    obtain ⟨below, otherBelow, written, otherWritten, selections⟩ := same.below
    exact ⟨otherBelow, below, otherWritten, written, selections.symm⟩

structure Occurrence.Same (left right : Table) (occurrence other : Occurrence) : Prop where
  conditions : other.conditions = occurrence.conditions
  node : FieldNode.Same left right occurrence.node other.node

theorem Occurrence.Same.symm {left right : Table} {occurrence other : Occurrence}
    (same : Occurrence.Same left right occurrence other) :
    Occurrence.Same right left other occurrence :=
  ⟨same.conditions.symm, same.node.symm⟩

namespace Table.Same

variable {left right : Table}

theorem symm (tables : left.Same right) : right.Same left where
  names name := (tables.names name).symm
  fragments name fragment other found otherFound := by
    obtain ⟨condition, selections⟩ := tables.fragments name other fragment otherFound found
    exact ⟨condition.symm, selections.symm⟩

theorem exists_other (tables : left.Same right) {name : String} {fragment : Query.Fragment}
    (found : left.get? name = some fragment) :
    ∃ other, right.get? name = some other ∧ other.condition = fragment.condition ∧
      SameSelections fragment.selections other.selections := by
  have present := tables.names name
  rw [found, Option.isSome_some, eq_comm, Option.isSome_iff_exists] at present
  obtain ⟨other, otherFound⟩ := present
  exact ⟨other, otherFound, tables.fragments name fragment other found otherFound⟩

theorem reachedAll_of {below otherBelow : List Selection} {crossed : List String}
    {occurrence : Occurrence}
    (each : ∀ inner ∈ below, ∀ {other : Selection}, Selection.Same inner other →
      ∀ {crossed : List String}, occurrence ∈ (left.unfoldOne inner).reached crossed →
        ∃ twin ∈ (right.unfoldOne other).reached crossed,
          Occurrence.Same left right occurrence twin)
    (within : Within below otherBelow)
    (reached : occurrence ∈ Unfolded.reachedAll crossed (left.unfold below)) :
    ∃ twin ∈ Unfolded.reachedAll crossed (right.unfold otherBelow),
      Occurrence.Same left right occurrence twin := by
  obtain ⟨inner, member, reached⟩ := mem_reachedAll_unfold.mp reached
  obtain ⟨other, otherMember, same⟩ := within_iff_exists_twin.mp within inner member
  obtain ⟨twin, twinReached, same⟩ := each inner member same reached
  exact ⟨twin, mem_reachedAll_unfold.mpr ⟨other, otherMember, twinReached⟩, same⟩

theorem reached (tables : left.Same right) {selection other : Selection}
    (same : Selection.Same selection other) {crossed : List String} {occurrence : Occurrence}
    (reached : occurrence ∈ (left.unfoldOne selection).reached crossed) :
    ∃ twin ∈ (right.unfoldOne other).reached crossed,
      Occurrence.Same left right occurrence twin := by
  induction selection using left.induction generalizing other crossed with
  | field label below _ =>
      cases same with
      | field key name forth back =>
          obtain ⟨recorded, rfl⟩ := Unfolded.mem_reached_field.mp reached
          rw [← FieldLabel.isMeta_eq_of_name_eq name] at recorded
          exact ⟨_, Unfolded.mem_reached_field.mpr ⟨recorded, rfl⟩, rfl, key, name, _, _, rfl, rfl,
            forth, back⟩
  | inline condition? position below ih =>
      cases same with
      | inline forth back =>
          rw [unfoldOne_inline, Unfolded.reached.eq_def] at reached ⊢
          cases condition? with
          | none => exact reachedAll_of ih forth reached
          | some condition => exact reachedAll_of ih forth reached
  | spread name position fragment found ih =>
      cases same with
      | spread =>
          obtain ⟨other, otherFound, condition, same⟩ := tables.exists_other found
          rw [unfoldOne_spread, unfoldNamed_found found, Unfolded.reached] at reached
          rw [unfoldOne_spread, unfoldNamed_found otherFound, Unfolded.reached, condition]
          exact reachedAll_of ih same.forth reached
  | missing name position missing =>
      rw [unfoldOne_spread, unfoldNamed_missing missing, Unfolded.reached] at reached
      cases reached

theorem reached_node (tables : left.Same right) {node other : FieldNode}
    (same : FieldNode.Same left right node other) {occurrence : Occurrence}
    (reached : occurrence ∈ node.reached) :
    ∃ twin ∈ other.reached, Occurrence.Same left right occurrence twin := by
  obtain ⟨below, otherBelow, written, otherWritten, same⟩ := same.below
  rw [FieldNode.reached, written] at reached
  rw [FieldNode.reached, otherWritten]
  exact reachedAll_of (fun _ _ _ same _ => tables.reached same) same.forth reached

end Table.Same

end Fragment
end FieldLookahead
