import FieldLookahead.Proofs.Value.Descent
import Mathlib.Logic.Relation

namespace FieldLookahead.Value

/-! Lists and objects may be shared between many places of a value, and then the same identity
comes again. Only within itself would it count as a cycle, and what an identity stands for is
larger than all its parts. -/

variable {hooks : Hooks} {around inside : List Node} {value part inner outer : Value} {node : Nat}

theorem wellFounded_part : WellFounded Part :=
  Subrelation.wf Part.size_lt (InvImage.wf size wellFounded_lt)

def Inside (inner outer : Value) : Prop :=
  Relation.ReflTransGen Part inner outer

def Hookless (value : Value) : Prop :=
  ∀ name, ¬ Inside (hooked name) value

/-- An identity stands for one list or object, wherever it comes in the value. -/
def Coherent (value : Value) : Prop :=
  ∀ one other node, Inside one value → Inside other value → one.node? = some node →
    other.node? = some node → one = other

theorem Hookless.of_inside (hookless : Hookless outer) (inside : Inside inner outer) :
    Hookless inner :=
  fun name deeper => hookless name (deeper.trans inside)

theorem Coherent.of_inside (coherent : Coherent outer) (inside : Inside inner outer) :
    Coherent inner :=
  fun one other node first second =>
    coherent one other node (first.trans inside) (second.trans inside)

section Inside

variable {items : List Value} {typeName? : Option String} {fields : List (String × Value)}

theorem inside_iff :
    Inside inner outer ↔ inner = outer ∨ ∃ part, Inside inner part ∧ Part part outer := by
  rw [Inside, Relation.ReflTransGen.cases_tail_iff, eq_comm]
  rfl

theorem inside_list_iff :
    Inside inner (list node items) ↔
      inner = list node items ∨ ∃ item ∈ items, Inside inner item := by
  rw [inside_iff]
  refine or_congr Iff.rfl ⟨?_, ?_⟩
  · rintro ⟨part, inside, made⟩
    cases made with
    | item member => exact ⟨part, member, inside⟩
  · rintro ⟨item, member, inside⟩
    exact ⟨item, inside, .item member⟩

theorem inside_object_iff :
    Inside inner (object node typeName? fields) ↔
      inner = object node typeName? fields ∨ ∃ field ∈ fields, Inside inner field.2 := by
  rw [inside_iff]
  refine or_congr Iff.rfl ⟨?_, ?_⟩
  · rintro ⟨part, inside, made⟩
    cases made with
    | field member => exact ⟨_, member, inside⟩
  · rintro ⟨field, member, inside⟩
    exact ⟨field.2, inside, .field member⟩

theorem Part.node?_isSome (part : Part inner outer) : outer.node?.isSome := by
  cases part <;> rfl

theorem inside_scalar_iff (scalar : outer.node? = none) : Inside inner outer ↔ inner = outer := by
  rw [inside_iff, or_iff_left]
  rintro ⟨part, _, made⟩
  simpa [scalar] using made.node?_isSome

end Inside

/-- What a list says at its end of the items that it does not show. -/
def remainder (count : Nat) : String :=
  "... " ++ toString count ++ if count = 1 then " more item" else " more items"

/-- The text of a value without hooks, by how many lists and objects enclose it and by nothing
else. -/
def plain (depth : Nat) : Value → String
  | list _ items =>
    if items.isEmpty then "[]"
    else if 2 ≤ depth then "[Array]"
    else
      "[" ++ String.intercalate ", " ((items.take 10).attach.map (fun item =>
          plain (depth + 1) item.1) ++
        if items.length ≤ 10 then [] else [remainder (items.length - 10)]) ++ "]"
  | object _ typeName? fields =>
    if fields.isEmpty then "\x7b\x7d"
    else if 2 ≤ depth then "[" ++ typeName?.getD "Object" ++ "]"
    else
      "\x7b " ++ String.intercalate ", " (fields.attach.map fun field =>
        field.1.1 ++ ": " ++ plain (depth + 1) field.1.2) ++ " \x7d"
  | scalar => scalarText scalar
  termination_by value => value.size
  decreasing_by
    · exact Part.size_lt (.item (List.mem_of_mem_take item.2))
    · exact Part.size_lt (.field field.2)

theorem plain_list (depth node : Nat) (items : List Value) :
    plain depth (list node items) =
      if items.isEmpty then "[]"
      else if 2 ≤ depth then "[Array]"
      else
        "[" ++ String.intercalate ", " ((items.take 10).map (plain (depth + 1)) ++
          if items.length ≤ 10 then []
          else [remainder (items.length - 10)]) ++ "]" := by
  rw [plain, List.attach_map_val]

theorem plain_object (depth node : Nat) (typeName? : Option String)
    (fields : List (String × Value)) :
    plain depth (object node typeName? fields) =
      if fields.isEmpty then "\x7b\x7d"
      else if 2 ≤ depth then "[" ++ typeName?.getD "Object" ++ "]"
      else
        "\x7b " ++ String.intercalate ", " (fields.map fun field =>
          field.1 ++ ": " ++ plain (depth + 1) field.2) ++ " \x7d" := by
  rw [plain, @List.attach_map_val _ _ fields fun field =>
    field.1 ++ ": " ++ plain (depth + 1) field.2]

theorem moreItems_eq_remainder (count : Nat) :
    moreItems (count - shownItems) =
      if count ≤ 10 then [] else [remainder (count - 10)] := by
  rw [shownItems]
  split
  · next few => rw [Nat.sub_eq_zero_of_le few, moreItems]
  · next many =>
      obtain ⟨hidden, counted⟩ : ∃ hidden, count - 10 = hidden + 1 :=
        Nat.exists_eq_add_one.mpr (by omega)
      rw [counted]
      cases hidden with
      | zero => rfl
      | succ hidden => simp [moreItems, remainder]

/-- All that stands around a part of a value are lists and objects that enclose it there. -/
structure Enclosed (value : Value) (around : List Node) (part : Value) : Prop where
  inside : Inside part value
  encloses : ∀ node ∈ around, ∃ outer identity, node = .container identity ∧
    outer.node? = some identity ∧ Inside outer value ∧ Relation.TransGen Part part outer

namespace Enclosed

theorem start (value : Value) : Enclosed value [] value :=
  ⟨.refl, fun _ member => absurd member List.not_mem_nil⟩

theorem down (enclosed : Enclosed value around outer) (identity : outer.node? = some node)
    (part : Part inner outer) : Enclosed value (.container node :: around) inner := by
  refine ⟨enclosed.inside.head part, fun other member => ?_⟩
  rcases List.mem_cons.mp member with rfl | member
  · exact ⟨outer, node, rfl, identity, enclosed.inside, .single part⟩
  · obtain ⟨further, name, same, named, inside, encloses⟩ := enclosed.encloses other member
    exact ⟨further, name, same, named, inside, encloses.head part⟩

theorem narrow (enclosed : Enclosed value around part) (inside : Inside inner part) :
    Enclosed value around inner := by
  refine ⟨inside.trans enclosed.inside, fun other member => ?_⟩
  obtain ⟨outer, name, same, named, within, encloses⟩ := enclosed.encloses other member
  exact ⟨outer, name, same, named, within, .trans_right inside encloses⟩

theorem fresh (enclosed : Enclosed value around part) (coherent : Coherent value)
    (identity : part.node? = some node) : Node.container node ∉ around := by
  intro member
  obtain ⟨outer, other, same, named, inside, encloses⟩ := enclosed.encloses _ member
  cases same
  cases coherent part outer node enclosed.inside inside identity named
  exact wellFounded_part.transGen.irrefl.irrefl part encloses

theorem enters (enclosed : Enclosed value around outer) (hookless : Hookless value)
    (enters : Enters hooks (inside, inner) (around, outer)) : Enclosed value inside inner := by
  cases enters with
  | part identity _ made => exact enclosed.down identity made
  | @hook _ name _ _ _ => exact absurd enclosed.inside (hookless name)

theorem of_descent (hookless : Hookless value)
    (descent : Relation.ReflTransGen (Enters hooks) (around, part) ([], value)) :
    Enclosed value around part := by
  generalize place : (around, part) = inner at descent
  induction descent using Relation.ReflTransGen.head_induction_on generalizing around part with
  | refl =>
      cases place
      exact start value
  | @head _ outer step _ ih =>
      cases place
      obtain ⟨around, outer⟩ := outer
      exact (ih rfl).enters hookless step

end Enclosed

theorem shown_eq_plain_of_apart (hookless : Hookless value) (coherent : Coherent value)
    (apart : ∀ inner node, Inside inner value → inner.node? = some node →
      Node.container node ∉ around) : shown hooks around value = plain around.length value := by
  induction value using wellFounded_part.induction generalizing around with
  | _ value ih =>
      have below {node : Nat} {inner : Value} (identity : value.node? = some node)
          (part : Part inner value) :
          shown hooks (.container node :: around) inner = plain (around.length + 1) inner := by
        refine ih inner part (hookless.of_inside (.single part))
          (coherent.of_inside (.single part)) fun deeper other inside named member => ?_
        rcases List.mem_cons.mp member with same | member
        · cases same
          cases coherent deeper value node (inside.tail part) .refl named identity
          exact wellFounded_part.transGen.irrefl.irrefl value (.tail' inside part)
        · exact apart deeper other (inside.tail part) named member
      cases value with
      | list node items =>
          rw [shown_list, within, if_neg (apart _ node .refl rfl), plain_list,
            List.map_congr_left fun item member =>
              below rfl (.item (List.mem_of_mem_take member)), moreItems_eq_remainder]
          simp only [shownItems, shownDepth, List.length_cons, Nat.lt_succ_iff]
      | object node typeName? fields =>
          rw [shown_object, within, if_neg (apart _ node .refl rfl), plain_object,
            List.map_congr_left fun field member => congrArg (field.1 ++ ": " ++ ·)
              (below rfl (.field member))]
          simp only [shownDepth, List.length_cons, Nat.lt_succ_iff]
      | hooked name => exact absurd .refl (hookless name)
      | _ => simp [shown, plain]

theorem shown_eq_plain (hookless : Hookless value) (coherent : Coherent value)
    (enclosed : Enclosed value around part) :
    shown hooks around part = plain around.length part :=
  shown_eq_plain_of_apart (hookless.of_inside enclosed.inside) (coherent.of_inside enclosed.inside)
    fun _ _ inside identity => (enclosed.narrow inside).fresh coherent identity

/-- Sharing is never taken for a cycle. A value without hooks is shown by how many lists and
objects enclose each of its parts, whatever their identities, and no descent comes to a list or
object that is among those around it. -/
theorem inspect_of_shared (hooks : Hooks) (value : Value) (hookless : Hookless value)
    (coherent : Coherent value) :
    inspect hooks value = plain 0 value ∧
    ∀ around part node, Relation.ReflTransGen (Enters hooks) (around, part) ([], value) →
      part.node? = some node → Node.container node ∉ around :=
  ⟨(inspect_eq_shown hooks value).trans (shown_eq_plain hookless coherent (.start value)),
    fun _ _ _ descent identity => (Enclosed.of_descent hookless descent).fresh coherent identity⟩

def sharedValue : Value :=
  let numbers := list 1 [int 1]
  let pair := object 2 none [("first", numbers), ("second", numbers)]
  list 3 [pair, numbers, pair]

theorem inside_sharedValue :
    Inside inner sharedValue ↔ inner = sharedValue ∨
      inner = object 2 none [("first", list 1 [int 1]), ("second", list 1 [int 1])] ∨
      inner = list 1 [int 1] ∨ inner = int 1 := by
  have scalar : Inside inner (int 1) ↔ inner = int 1 := inside_scalar_iff rfl
  simp only [sharedValue, inside_list_iff, inside_object_iff, scalar, List.mem_cons,
    List.not_mem_nil, or_false, exists_eq_or_imp, exists_eq_left]
  tauto

theorem hookless_sharedValue : Hookless sharedValue := by
  intro name inside
  rcases inside_sharedValue.mp inside with same | same | same | same <;> cases same

theorem coherent_sharedValue : Coherent sharedValue := by
  intro one other node oneInside otherInside oneIdentity otherIdentity
  rcases inside_sharedValue.mp oneInside with rfl | rfl | rfl | rfl <;>
    rcases inside_sharedValue.mp otherInside with rfl | rfl | rfl | rfl <;>
    cases oneIdentity <;> first | rfl | cases otherIdentity

theorem inspect_sharedValue :
    inspect [] sharedValue = plain 0 sharedValue ∧
    inspect [] sharedValue = "[\x7b first: [Array], second: [Array] \x7d, [1], " ++
      "\x7b first: [Array], second: [Array] \x7d]" :=
  ⟨(inspect_of_shared [] sharedValue hookless_sharedValue coherent_sharedValue).1, by decide⟩

end FieldLookahead.Value
