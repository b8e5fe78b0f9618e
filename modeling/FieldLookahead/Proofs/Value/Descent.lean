import FieldLookahead.Value.Inspect
import Mathlib.Data.Finset.Card
import Mathlib.Data.Prod.Lex
import Mathlib.Order.WellFounded

namespace FieldLookahead.Value

/-! How far it is from a value to the end of every descent through lists, objects and hooks. A
value does not bound a descent, since a hook leads to a value that may refer to the hook again;
the hooks that are not yet around it do. -/

variable {hooks : Hooks} {around : List Node} {inner outer value : Value} {name : String}
  {node limit : Nat}

def node? : Value → Option Nat
  | list node _ => some node
  | object node _ _ => some node
  | _ => none

inductive Part : Value → Value → Prop
  | item {node : Nat} {items : List Value} {item : Value} (member : item ∈ items) :
      Part item (list node items)
  | field {node : Nat} {typeName? : Option String} {fields : List (String × Value)} {key : String}
      {value : Value} (member : (key, value) ∈ fields) : Part value (object node typeName? fields)

mutual
def size : Value → Nat
  | list _ items => sizeOfItems items + 1
  | object _ _ fields => sizeOfFields fields + 1
  | _ => 1
  termination_by structural value => value

def sizeOfItems : List Value → Nat
  | [] => 0
  | item :: rest => item.size + sizeOfItems rest
  termination_by structural items => items

def sizeOfFields : List (String × Value) → Nat
  | [] => 0
  | (_, value) :: rest => value.size + sizeOfFields rest
  termination_by structural fields => fields
end

theorem size_le_of_mem_items {items : List Value} (member : value ∈ items) :
    value.size ≤ sizeOfItems items := by
  induction items with
  | nil => cases member
  | cons item rest ih =>
      rw [sizeOfItems]
      rcases List.mem_cons.mp member with rfl | member
      · exact Nat.le_add_right _ _
      · exact (ih member).trans (Nat.le_add_left _ _)

theorem size_le_of_mem_fields {fields : List (String × Value)} {key : String}
    (member : (key, value) ∈ fields) : value.size ≤ sizeOfFields fields := by
  induction fields with
  | nil => cases member
  | cons field rest ih =>
      rw [sizeOfFields]
      rcases List.mem_cons.mp member with rfl | member
      · exact Nat.le_add_right _ _
      · exact (ih member).trans (Nat.le_add_left _ _)

theorem Part.size_lt (part : Part inner outer) : inner.size < outer.size := by
  cases part with
  | item member => exact Nat.lt_succ_of_le (size_le_of_mem_items member)
  | field member => exact Nat.lt_succ_of_le (size_le_of_mem_fields member)

/-- A descent goes on from a value to its parts, or to what its hook shows. What it goes through
is from then on around it, and is not entered again. -/
inductive Enters (hooks : Hooks) : List Node × Value → List Node × Value → Prop
  | part {around : List Node} {node : Nat} {inner outer : Value}
      (identity : outer.node? = some node) (fresh : .container node ∉ around)
      (part : Part inner outer) :
      Enters hooks (.container node :: around, inner) (around, outer)
  | hook {around : List Node} {name : String} {value : Value} (fresh : .hook name ∉ around)
      (found : Assoc.get? name hooks = some value) :
      Enters hooks (.hook name :: around, value) (around, hooked name)

def pending (hooks : Hooks) (around : List Node) : Nat :=
  ((Assoc.keys hooks).toFinset.filter fun name => Node.hook name ∉ around).card

@[simp] theorem pending_container (hooks : Hooks) (around : List Node) (node : Nat) :
    pending hooks (.container node :: around) = pending hooks around := by
  simp [pending]

theorem pending_hook_lt (fresh : Node.hook name ∉ around)
    (found : Assoc.get? name hooks = some value) :
    pending hooks (.hook name :: around) < pending hooks around := by
  have known : name ∈ Assoc.keys hooks := by
    rw [← Assoc.get?_isSome, found, Option.isSome_some]
  refine Finset.card_lt_card (Finset.ssubset_iff_of_subset ?_ |>.mpr ⟨name, ?_, ?_⟩)
  · intro other pends
    simp only [Finset.mem_filter, List.mem_cons, not_or] at pends ⊢
    exact ⟨pends.1, pends.2.2⟩
  · simp [known, fresh]
  · simp

theorem pending_le_length (hooks : Hooks) (around : List Node) :
    pending hooks around ≤ hooks.length :=
  calc pending hooks around
    _ ≤ (Assoc.keys hooks).toFinset.card := Finset.card_filter_le _ _
    _ ≤ (Assoc.keys hooks).length := List.toFinset_card_le _
    _ = hooks.length := List.length_map _

/-- The hooks that are not yet around a value come first, and then its own size. -/
def weight (hooks : Hooks) (place : List Node × Value) : Nat ×ₗ Nat :=
  toLex (pending hooks place.1, place.2.size)

theorem weight_lt_of_enters {inner outer : List Node × Value} (enters : Enters hooks inner outer) :
    weight hooks inner < weight hooks outer := by
  cases enters with
  | part _ _ part =>
      exact Prod.Lex.toLex_lt_toLex.mpr (.inr ⟨pending_container _ _ _, part.size_lt⟩)
  | hook fresh found =>
      exact Prod.Lex.toLex_lt_toLex.mpr (.inl (pending_hook_lt fresh found))

theorem wellFounded_enters (hooks : Hooks) : WellFounded (Enters hooks) :=
  Subrelation.wf weight_lt_of_enters (InvImage.wf (weight hooks) wellFounded_lt)

def scalarText : Value → String
  | null => "null"
  | bool truth => if truth then "true" else "false"
  | int value => toString value
  | float bits => floatText bits
  | text content => Text.quoted content
  | enum name => name
  | _ => ""

/-- Shows a value within some nodes, following each hook to what it shows for as long as none
comes again. -/
def shown (hooks : Hooks) (around : List Node) : Value → String
  | list node items =>
    if _ : .container node ∈ around then "[Circular]"
    else if items.isEmpty then "[]"
    else if shownDepth < around.length + 1 then "[Array]"
    else
      "[" ++ String.intercalate ", " ((items.take shownItems).attach.map (fun item =>
          shown hooks (.container node :: around) item.1) ++
        moreItems (items.length - shownItems)) ++ "]"
  | object node typeName? fields =>
    if _ : .container node ∈ around then "[Circular]"
    else if fields.isEmpty then "\x7b\x7d"
    else if shownDepth < around.length + 1 then "[" ++ typeName?.getD "Object" ++ "]"
    else
      "\x7b " ++ String.intercalate ", " (fields.attach.map fun field =>
        field.1.1 ++ ": " ++ shown hooks (.container node :: around) field.1.2) ++ " \x7d"
  | hooked name =>
    if _ : .hook name ∈ around then "[Circular]"
    else
      match _ : Assoc.get? name hooks with
      | none => ""
      | some (.text content) => content
      | some value => shown hooks (.hook name :: around) value
  | scalar => scalarText scalar
  termination_by value => weight hooks (around, value)
  decreasing_by
    · exact weight_lt_of_enters (.part rfl ‹_› (.item (List.mem_of_mem_take item.2)))
    · exact weight_lt_of_enters (.part rfl ‹_› (.field field.2))
    · exact weight_lt_of_enters (.hook ‹_› ‹_›)

section Shown

variable (hooks : Hooks) (around : List Node)

theorem shown_list (node : Nat) (items : List Value) :
    shown hooks around (list node items) = within around (.container node) fun inside =>
      if items.isEmpty then "[]"
      else if shownDepth < inside.length then "[Array]"
      else
        "[" ++ String.intercalate ", " ((items.take shownItems).map (shown hooks inside) ++
          moreItems (items.length - shownItems)) ++ "]" := by
  rw [shown, within, dite_eq_ite, List.attach_map_val]
  rfl

theorem shown_object (node : Nat) (typeName? : Option String) (fields : List (String × Value)) :
    shown hooks around (object node typeName? fields) =
      within around (.container node) fun inside =>
        if fields.isEmpty then "\x7b\x7d"
        else if shownDepth < inside.length then "[" ++ typeName?.getD "Object" ++ "]"
        else
          "\x7b " ++ String.intercalate ", " (fields.map fun field =>
            field.1 ++ ": " ++ shown hooks inside field.2) ++ " \x7d" := by
  rw [shown, within, dite_eq_ite, @List.attach_map_val _ _ fields fun field =>
    field.1 ++ ": " ++ shown hooks (.container node :: around) field.2]
  rfl

theorem shown_hooked (name : String) :
    shown hooks around (hooked name) = within around (.hook name) fun inside =>
      match Assoc.get? name hooks with
      | none => ""
      | some (.text content) => content
      | some value => shown hooks inside value := by
  rw [shown, within, dite_eq_ite]
  refine if_congr Iff.rfl rfl ?_
  split <;> simp only [*]

end Shown

section Texts

variable {showHook : List Node → String → String}

theorem showItems_eq_map (limit : Nat) (items : List Value) :
    showItems showHook around limit items = (items.take limit).map (showWith showHook around) := by
  induction items generalizing limit with
  | nil => rw [showItems, List.take_nil, List.map_nil]
  | cons item rest ih =>
      cases limit with
      | zero => rfl
      | succ limit => simp [showItems, ih]

theorem showFields_eq_map (fields : List (String × Value)) :
    showFields showHook around fields =
      fields.map fun field => field.1 ++ ": " ++ showWith showHook around field.2 := by
  induction fields with
  | nil => rfl
  | cons field rest ih => rw [showFields, ih, List.map_cons]

end Texts

theorem within_congr {node : Node} {one other : List Node → String}
    (same : node ∉ around → one (node :: around) = other (node :: around)) :
    within around node one = within around node other := by
  rw [within, within]
  split
  · rfl
  · next fresh => exact same fresh

/-- Where a limit lets in as many hooks as are pending, it cuts nothing off. -/
theorem showWith_eq_shown (enough : pending hooks around ≤ limit) :
    showWith (showHook hooks limit) around value = shown hooks around value := by
  -- The induction is along the descent, where each hook takes one from the limit.
  suffices ∀ place : List Node × Value, ∀ limit, pending hooks place.1 ≤ limit →
      showWith (showHook hooks limit) place.1 place.2 = shown hooks place.1 place.2 from
    this (around, value) limit enough
  intro place
  induction place using (wellFounded_enters hooks).induction with
  | _ place ih =>
      intro limit enough
      obtain ⟨around, value⟩ := place
      cases value with
      | list node items =>
          rw [showWith, shown_list]
          refine within_congr fun fresh => ?_
          rw [showItems_eq_map, List.map_congr_left fun item member =>
            ih _ (.part rfl fresh (.item (List.mem_of_mem_take member))) limit
              ((pending_container _ _ _).trans_le enough)]
      | object node typeName? fields =>
          rw [showWith, shown_object]
          refine within_congr fun fresh => ?_
          rw [showFields_eq_map, List.map_congr_left fun field member => congrArg _
            (ih _ (.part rfl fresh (.field member)) limit
              ((pending_container _ _ _).trans_le enough))]
      | hooked name =>
          rw [showWith, shown_hooked]
          cases limit with
          | zero =>
              rw [showHook]
              refine within_congr fun fresh => ?_
              cases found : Assoc.get? name hooks with
              | none => rfl
              | some value =>
                  exact absurd ((pending_hook_lt fresh found).trans_le enough) (Nat.not_lt_zero _)
          | succ limit =>
              rw [showHook]
              refine within_congr fun fresh => ?_
              cases found : Assoc.get? name hooks with
              | none => rfl
              | some value =>
                  have below := ih _ (.hook fresh found) limit
                    (Nat.le_of_lt_succ ((pending_hook_lt fresh found).trans_le enough))
                  cases value with
                  | text content => rfl
                  | _ => exact below
      | _ => simp [showWith, shown, scalarText]

theorem inspect_eq_shown (hooks : Hooks) (value : Value) :
    inspect hooks value = shown hooks [] value :=
  showWith_eq_shown (pending_le_length hooks [])

/-- Showing a value comes to an end, whatever hooks there are and whatever they refer to. Each step
of a descent leads to where fewer hooks are still to come, or as many and then a smaller value, and
the limit to the depth of hooks cuts nothing off. -/
theorem inspect_descends (hooks : Hooks) :
    WellFounded (Enters hooks) ∧
    (∀ inner outer, Enters hooks inner outer → weight hooks inner < weight hooks outer) ∧
    (∀ around value limit, pending hooks around ≤ limit →
      showWith (showHook hooks limit) around value = shown hooks around value) ∧
    ∀ value, inspect hooks value = shown hooks [] value :=
  ⟨wellFounded_enters hooks, fun _ _ => weight_lt_of_enters, fun _ _ _ => showWith_eq_shown,
    inspect_eq_shown hooks⟩

example : inspect [("one", .list 0 [.null, .hooked "other"]), ("other", .hooked "one")]
    (.hooked "one") = "[null, [Circular]]" := by decide

end FieldLookahead.Value
