import FieldLookahead.Proofs.Value.Descent
import Mathlib.Data.List.Forall2

namespace FieldLookahead.Value

/-! The text of a value puts the texts of what is shown directly in it together. Where the value is
not cut off it tells these texts apart, if no text on one side is longer than its counterpart. -/

variable {hooks : Hooks} {around : List Node} {name : String} {levels : Nat}
  {value inner outer : Value} {node : Node}

def mark? : Value → Option Node
  | list node _ => some (.container node)
  | object node _ _ => some (.container node)
  | hooked name => some (.hook name)
  | _ => none

theorem mark?_eq_container {node : Nat} :
    value.mark? = some (.container node) ↔ value.node? = some node := by
  cases value <;> simp [mark?, node?]

theorem mark?_eq_hook : value.mark? = some (.hook name) ↔ value = hooked name := by
  cases value <;> simp [mark?]

def verbatim? (hooks : Hooks) (name : String) : Option String :=
  match Assoc.get? name hooks with
  | some (text content) => some content
  | _ => none

theorem verbatim?_eq_some {content : String} :
    verbatim? hooks name = some content ↔ Assoc.get? name hooks = some (text content) := by
  rw [verbatim?]
  split
  · next found => simp [found]
  · next other => simpa using other content

/-- What is shown directly in a value, as far as a list is shown. -/
def shownParts (hooks : Hooks) : Value → List Value
  | list _ items => items.take shownItems
  | object _ _ fields => fields.map Prod.snd
  | hooked name =>
    if (verbatim? hooks name).isSome then [] else (Assoc.get? name hooks).toList
  | _ => []

def labelled (keys texts : List String) : List String :=
  List.zipWith (fun key text => key ++ ": " ++ text) keys texts

theorem shownParts_of_mark?_eq_none (closed : value.mark? = none) :
    shownParts hooks value = [] := by
  cases value with
  | list | object | hooked => cases closed
  | _ => rfl

/-- Puts the texts of what is shown in a value together, where the value is the innermost of some
levels. -/
def layout (hooks : Hooks) (levels : Nat) (texts : List String) : Value → String
  | list _ items =>
    if items.isEmpty then "[]"
    else if shownDepth < levels then "[Array]"
    else "[" ++ String.intercalate ", " (texts ++ moreItems (items.length - shownItems)) ++ "]"
  | object _ typeName? fields =>
    if fields.isEmpty then "\x7b\x7d"
    else if shownDepth < levels then "[" ++ typeName?.getD "Object" ++ "]"
    else
      "\x7b " ++ String.intercalate ", " (labelled (Assoc.keys fields) texts) ++ " \x7d"
  | hooked name => (verbatim? hooks name).getD (texts.headD "")
  | scalar => scalarText scalar

theorem shown_eq_layout (opens : value.mark? = some node) :
    shown hooks around value = within around node fun inside =>
      layout hooks inside.length ((shownParts hooks value).map (shown hooks inside)) value := by
  cases value with
  | list => cases opens; exact shown_list ..
  | object =>
      cases opens
      simp only [shown_object, layout, labelled, shownParts, Assoc.keys, List.map_map,
        List.zipWith_map, List.zipWith_self]
      rfl
  | hooked name =>
      cases opens
      rw [shown_hooked]
      refine within_congr fun _ => ?_
      simp only [layout, shownParts, verbatim?]
      split <;> simp_all
  | _ => cases opens

theorem shown_of_mark?_eq_none (closed : value.mark? = none) :
    shown hooks around value = scalarText value := by
  cases value with
  | list | object | hooked => cases closed
  | _ => simp [shown]

theorem enters_of_mem_shownParts (opens : outer.mark? = some node) (fresh : node ∉ around)
    (member : inner ∈ shownParts hooks outer) :
    Enters hooks (node :: around, inner) (around, outer) := by
  cases outer with
  | list => cases opens; exact .part rfl fresh (.item (List.mem_of_mem_take member))
  | object =>
      cases opens
      obtain ⟨⟨key, part⟩, listed, rfl⟩ := List.mem_map.mp member
      exact .part rfl fresh (.field listed)
  | hooked name =>
      cases opens
      rw [shownParts] at member
      split at member
      · cases member
      · exact .hook fresh (Option.mem_toList.mp member)
  | _ => cases opens

/-! Texts that are told apart after they are put together. -/

section Texts

variable {α : Type} {separator : List α} {left right : List (List α)}

theorem length_intercalate_le
    (shorter : List.Forall₂ (fun one other => one.length ≤ other.length) left right) :
    (separator.intercalate left).length ≤ (separator.intercalate right).length := by
  induction shorter with
  | nil => exact le_rfl
  | cons here there ih =>
      cases there with
      | nil => simpa using here
      | cons =>
          simp only [List.intercalate_cons_cons, List.length_append]
          omega

theorem intercalate_inj_of_length_le
    (shorter : List.Forall₂ (fun one other => one.length ≤ other.length) left right)
    (same : separator.intercalate left = separator.intercalate right) : left = right := by
  induction shorter with
  | nil => rfl
  | @cons one other _ _ here there ih =>
      cases there with
      | nil => simpa using same
      | cons next rest =>
          have later := @length_intercalate_le _ separator _ _ (.cons next rest)
          have lengths := congrArg List.length same
          simp only [List.intercalate_cons_cons, List.append_assoc, List.length_append]
            at same lengths
          obtain ⟨rfl, onward⟩ := List.append_inj same (by omega)
          rw [ih (List.append_cancel_left onward)]

end Texts

def Shorter : List String → List String → Prop :=
  List.Forall₂ fun one other => one.length ≤ other.length

theorem Shorter.intercalate_inj {separator : String} {left right : List String}
    (shorter : Shorter left right)
    (same : String.intercalate separator left = String.intercalate separator right) :
    left = right := by
  rw [← String.toList_inj, String.toList_intercalate, String.toList_intercalate] at same
  refine (List.map_inj_right fun _ _ => String.toList_inj.mp).mp
    (intercalate_inj_of_length_le ?_ same)
  rw [List.forall₂_map_left_iff, List.forall₂_map_right_iff]
  exact shorter.imp fun _ _ le => by simpa only [String.length_toList] using le

theorem Shorter.labelled {left right : List String} (shorter : Shorter left right)
    (keys : List String) : Shorter (labelled keys left) (labelled keys right) := by
  induction shorter generalizing keys with
  | nil => cases keys <;> exact .nil
  | cons here _ ih =>
      cases keys with
      | nil => exact .nil
      | cons key keys => exact .cons (by simpa using here) (ih keys)

theorem labelled_inj {keys left right : List String} (number : left.length = keys.length)
    (number' : right.length = keys.length) (same : labelled keys left = labelled keys right) :
    left = right := by
  induction keys generalizing left right with
  | nil => rw [List.length_eq_zero_iff.mp number, List.length_eq_zero_iff.mp number']
  | cons key keys ih =>
      obtain ⟨one, left, rfl⟩ := List.exists_cons_of_length_eq_add_one number
      obtain ⟨other, right, rfl⟩ := List.exists_cons_of_length_eq_add_one number'
      simp only [labelled, List.zipWith_cons_cons, List.cons.injEq, String.append_right_inj] at same
      rw [same.1, ih (Nat.succ.inj number) (Nat.succ.inj number') same.2]

theorem layout_inj {texts texts' : List String} (shallow : levels ≤ shownDepth)
    (number : texts.length = (shownParts hooks value).length) (shorter : Shorter texts texts')
    (same : layout hooks levels texts value = layout hooks levels texts' value) :
    texts = texts' := by
  have number' := shorter.length_eq.symm.trans number
  cases value with
  | list node items =>
      cases items with
      | nil => simp_all [shownParts]
      | cons item rest =>
          simp only [layout, List.isEmpty_cons, Bool.false_eq_true, if_false,
            Nat.not_lt.mpr shallow, String.append_left_inj, String.append_right_inj] at same
          exact List.append_cancel_right
            (Shorter.intercalate_inj (List.rel_append shorter (List.forall₂_same.mpr
              fun _ _ => le_rfl)) same)
  | object node typeName? fields =>
      cases fields with
      | nil => simp_all [shownParts]
      | cons field rest =>
          simp only [layout, List.isEmpty_cons, Bool.false_eq_true, if_false,
            Nat.not_lt.mpr shallow, String.append_left_inj, String.append_right_inj] at same
          have keyed : (shownParts hooks (object node typeName? (field :: rest))).length =
              (Assoc.keys (field :: rest)).length := by simp [shownParts, Assoc.keys]
          exact labelled_inj (number.trans keyed) (number'.trans keyed)
            ((shorter.labelled _).intercalate_inj same)
  | hooked name =>
      cases shorter with
      | nil => rfl
      | cons here there =>
          cases verbatim : verbatim? hooks name with
          | none =>
              have single := Option.length_toList_le (o := Assoc.get? name hooks)
              simp only [layout, verbatim, Option.getD_none, List.headD_cons] at same
              simp only [shownParts, verbatim] at number
              cases there with
              | nil => rw [same]
              | cons => simp at number; omega
          | some content => simp [shownParts, verbatim] at number
  | _ => simp_all [shownParts]

end FieldLookahead.Value
