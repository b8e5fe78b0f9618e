import FieldLookahead.Proofs.Value.Layout
import FieldLookahead.Proofs.Value.Sharing

namespace FieldLookahead.Value

/-! Where a hook stands in a value, what it shows may stand instead. A hook counts as one more
level around what it shows, so the text stays the same if that looks the same one level further
in. Within two levels or more it always does. -/

variable {hooks hooks' : Hooks} {around : List Node} {name : String} {levels : Nat}
  {value value' display inner inner' outer : Value} {node : Node}

/-! What comes up when a value is shown. -/

inductive Leads (hooks : Hooks) : Value → Value → Prop
  | part {inner outer : Value} (part : Part inner outer) : Leads hooks inner outer
  | hook {name : String} {display : Value} (found : Assoc.get? name hooks = some display) :
      Leads hooks display (hooked name)

def Reached (hooks : Hooks) (inner outer : Value) : Prop :=
  Relation.ReflTransGen (Leads hooks) inner outer

/-- An identity stands for one list or object, wherever it comes up. -/
def CoherentWith (hooks : Hooks) (value : Value) : Prop :=
  ∀ one other node, Reached hooks one value → Reached hooks other value →
    one.node? = some node → other.node? = some node → one = other

theorem Inside.reached (inside : Inside inner outer) : Reached hooks inner outer :=
  Relation.ReflTransGen.mono (fun _ _ => .part) _ _ inside

theorem Reached.inside (hookless : Hookless outer) (reached : Reached hooks inner outer) :
    Inside inner outer := by
  induction reached using Relation.ReflTransGen.head_induction_on with
  | refl => exact .refl
  | head leads _ ih =>
      cases leads with
      | part part => exact .head part ih
      | hook _ => exact absurd ih (hookless _)

theorem reached_iff :
    Reached hooks inner outer ↔
      inner = outer ∨ ∃ next, Reached hooks inner next ∧ Leads hooks next outer := by
  rw [Reached, Relation.ReflTransGen.cases_tail_iff, eq_comm]
  rfl

theorem reached_closed_iff (closed : ∀ next, ¬ Leads hooks next outer) :
    Reached hooks inner outer ↔ inner = outer := by
  rw [reached_iff, or_iff_left]
  exact fun ⟨next, _, leads⟩ => closed next leads

theorem leads_hooked_iff :
    Leads hooks inner (hooked name) ↔ Assoc.get? name hooks = some inner := by
  refine ⟨?_, .hook⟩
  rintro (part | found)
  · cases part
  · exact found

theorem reached_list_iff {node : Nat} {items : List Value} :
    Reached hooks inner (list node items) ↔
      inner = list node items ∨ ∃ item ∈ items, Reached hooks inner item := by
  rw [reached_iff]
  refine or_congr Iff.rfl ⟨?_, fun ⟨item, member, onward⟩ => ⟨item, onward, .part (.item member)⟩⟩
  rintro ⟨next, onward, leads | _⟩
  cases leads with
  | item member => exact ⟨next, member, onward⟩

theorem reached_object_iff {node : Nat} {typeName? : Option String}
    {fields : List (String × Value)} :
    Reached hooks inner (object node typeName? fields) ↔
      inner = object node typeName? fields ∨ ∃ field ∈ fields, Reached hooks inner field.2 := by
  rw [reached_iff]
  refine or_congr Iff.rfl
    ⟨?_, fun ⟨field, member, onward⟩ => ⟨field.2, onward, .part (.field member)⟩⟩
  rintro ⟨next, onward, leads | _⟩
  cases leads with
  | field member => exact ⟨_, member, onward⟩

theorem reached_hooked_iff :
    Reached hooks inner (hooked name) ↔ inner = hooked name ∨
      ∃ display, Assoc.get? name hooks = some display ∧ Reached hooks inner display := by
  rw [reached_iff]
  simp only [leads_hooked_iff, and_comm]

theorem Enters.leads {inside : List Node}
    (enters : Enters hooks (inside, inner) (around, outer)) : Leads hooks inner outer := by
  cases enters with
  | part _ _ part => exact .part part
  | hook _ found => exact .hook found

theorem CoherentWith.coherent (coherent : CoherentWith hooks value)
    (reached : Reached hooks inner value) : Coherent inner :=
  fun one other node first second =>
    coherent one other node (first.reached.trans reached) (second.reached.trans reached)

/-- All that stands around a value that comes up was entered on the way to it. -/
structure Passed (hooks : Hooks) (value : Value) (around : List Node) (inner : Value) : Prop where
  reached : Reached hooks inner value
  entered : ∀ node ∈ around, ∃ outer, outer.mark? = some node ∧ Reached hooks outer value ∧
    Relation.TransGen (Leads hooks) inner outer

namespace Passed

theorem start (value : Value) : Passed hooks value [] value :=
  ⟨.refl, fun _ member => absurd member List.not_mem_nil⟩

theorem down (passed : Passed hooks value around outer) (opens : outer.mark? = some node)
    (leads : Leads hooks inner outer) : Passed hooks value (node :: around) inner := by
  refine ⟨passed.reached.head leads, fun other member => ?_⟩
  rcases List.mem_cons.mp member with rfl | member
  · exact ⟨outer, opens, passed.reached, .single leads⟩
  · obtain ⟨further, marked, reached, onward⟩ := passed.entered other member
    exact ⟨further, marked, reached, onward.head leads⟩

end Passed

/-! Hooks replaced by what they show. -/

/-- At some of the places in a value where a hook stands, another value stands instead. -/
inductive Inlined (name : String) (display : Value) : Value → Value → Prop
  | here : Inlined name display (hooked name) display
  | scalar {value : Value} (scalar : value.node? = none) : Inlined name display value value
  | list {node : Nat} {left right : List Value}
      (items : List.Forall₂ (Inlined name display) left right) :
      Inlined name display (list node left) (list node right)
  | object {node : Nat} {typeName? : Option String} {left right : List (String × Value)}
      (keys : Assoc.keys right = Assoc.keys left)
      (values : List.Forall₂ (Inlined name display) (left.map Prod.snd) (right.map Prod.snd)) :
      Inlined name display (object node typeName? left) (object node typeName? right)

/-- A hook shows a value that has no hooks and is no text, and at some of the places where it
stands in what the hooks show, that value stands instead. -/
structure Inlines (name : String) (display : Value) (hooks hooks' : Hooks) : Prop where
  found : Assoc.get? name hooks = some display
  notText : ∀ content, display ≠ text content
  hookless : Hookless display
  displays : ∀ other,
    Option.Rel (Inlined name display) (Assoc.get? other hooks) (Assoc.get? other hooks')

theorem Inlines.verbatim?_eq_none (inlines : Inlines name display hooks hooks') :
    verbatim? hooks name = none := by
  refine Option.eq_none_iff_forall_ne_some.mpr fun content verbatim => ?_
  exact inlines.notText content
    (Option.some.inj (inlines.found.symm.trans (verbatim?_eq_some.mp verbatim)))

def Replaced (name : String) (display value value' : Value) : Prop :=
  value = hooked name ∧ value' = display

namespace Inlined

theorem refl (value : Value) : Inlined name display value value := by
  induction value using wellFounded_part.induction with
  | _ value ih =>
      cases value with
      | list => exact .list (List.forall₂_same.mpr fun item member => ih item (.item member))
      | object =>
          refine .object rfl (List.forall₂_same.mpr fun value member => ?_)
          obtain ⟨field, listed, rfl⟩ := List.mem_map.mp member
          exact ih field.2 (.field listed)
      | _ => exact .scalar rfl

theorem text_iff (inlined : Inlined name display value value')
    (notText : ∀ content, display ≠ text content) {content : String} :
    value' = text content ↔ value = text content := by
  cases inlined with
  | here => simp [notText]
  | scalar _ => rfl
  | list _ => simp
  | object _ _ => simp

theorem eq_of_mark?_eq_none (inlined : Inlined name display value value')
    (closed : value.mark? = none) : value' = value := by
  cases inlined with
  | scalar _ => rfl
  | here | list | object => cases closed

theorem verbatim?_eq (inlines : Inlines name display hooks hooks') (other : String) :
    verbatim? hooks' other = verbatim? hooks other := by
  refine Option.ext fun content => ?_
  rw [verbatim?_eq_some, verbatim?_eq_some]
  have related := inlines.displays other
  generalize Assoc.get? other hooks = one, Assoc.get? other hooks' = two at related ⊢
  cases related with
  | none => simp
  | some inlined => simpa using inlined.text_iff inlines.notText

variable (kept : ¬ Replaced name display value value')
include kept

theorem mark?_eq (inlined : Inlined name display value value') : value'.mark? = value.mark? := by
  cases inlined with
  | here => exact absurd ⟨rfl, rfl⟩ kept
  | scalar _ => rfl
  | list _ => rfl
  | object _ _ => rfl

theorem shownParts (inlines : Inlines name display hooks hooks')
    (inlined : Inlined name display value value') :
    List.Forall₂ (Inlined name display) (shownParts hooks value) (shownParts hooks' value') := by
  cases inlined with
  | here => exact absurd ⟨rfl, rfl⟩ kept
  | list items => exact List.forall₂_take _ items
  | object _ values => exact values
  | scalar scalar =>
      cases value with
      | hooked other =>
          rw [Value.shownParts, Value.shownParts, verbatim?_eq inlines]
          split
          · exact .nil
          · have related := inlines.displays other
            generalize Assoc.get? other hooks = one, Assoc.get? other hooks' = two at related ⊢
            cases related with
            | none => exact .nil
            | some inlined => exact .cons inlined .nil
      | list | object => cases scalar
      | _ => exact .nil

theorem layout_eq (inlines : Inlines name display hooks hooks')
    (inlined : Inlined name display value value') (levels : Nat) (texts : List String) :
    layout hooks' levels texts value' = layout hooks levels texts value := by
  cases inlined with
  | here => exact absurd ⟨rfl, rfl⟩ kept
  | list items =>
      have lengths := items.length_eq
      simp only [layout, List.isEmpty_iff_length_eq_zero, lengths]
  | object keys values =>
      have lengths := values.length_eq
      simp only [List.length_map] at lengths
      simp only [layout, List.isEmpty_iff_length_eq_zero, lengths, keys]
  | scalar scalar =>
      cases value with
      | hooked other => rw [layout, layout, verbatim?_eq inlines]
      | list | object => cases scalar
      | _ => rfl

end Inlined

theorem plain_succ (deep : 2 ≤ levels) :
    plain (levels + 1) value = plain levels value := by
  cases value with
  | list => rw [plain_list, plain_list, if_pos deep, if_pos (Nat.le_succ_of_le deep)]
  | object => rw [plain_object, plain_object, if_pos deep, if_pos (Nat.le_succ_of_le deep)]
  | _ => simp [plain]

theorem map_eq_map {Related : Value → Value → Prop} {left right : List Value}
    {first second : Value → String} (related : List.Forall₂ Related left right)
    (same : ∀ one other, (one, other) ∈ left.zip right → first one = second other) :
    left.map first = right.map second := by
  rw [← List.forall₂_eq_eq_eq, List.forall₂_map_left_iff, List.forall₂_map_right_iff,
    List.forall₂_iff_zip]
  exact ⟨related.length_eq, same _ _⟩

namespace Passed

variable (inlines : Inlines name display hooks hooks') (coherent : CoherentWith hooks value)
  (passed : Passed hooks value around (hooked name))
include inlines passed

theorem hook_notMem : Node.hook name ∉ around := by
  intro member
  obtain ⟨outer, marked, _, onward⟩ := passed.entered _ member
  cases mark?_eq_hook.mp marked
  obtain ⟨next, below, leads⟩ := Relation.TransGen.tail'_iff.mp onward
  cases inlines.found.symm.trans (leads_hooked_iff.mp leads)
  exact inlines.hookless name (Reached.inside inlines.hookless below)

include coherent

theorem container_notMem (inside : Inside inner display) {node : Nat}
    (identity : inner.node? = some node) : Node.container node ∉ around := by
  intro member
  obtain ⟨outer, marked, reached, onward⟩ := passed.entered _ member
  have below : Reached hooks inner value :=
    inside.reached.trans (.head (.hook inlines.found) passed.reached)
  cases coherent outer inner node reached below (mark?_eq_container.mp marked) identity
  exact inlines.hookless.of_inside inside name
    (Reached.inside (inlines.hookless.of_inside inside) onward.to_reflTransGen)

theorem shown_display (others : Hooks) :
    shown others around display = plain around.length display :=
  shown_eq_plain_of_apart inlines.hookless
    (coherent.coherent (.head (.hook inlines.found) passed.reached))
    fun _ _ inside => passed.container_notMem inlines coherent inside

theorem shown_hook : shown hooks around (hooked name) = plain (around.length + 1) display := by
  rw [shown_eq_layout rfl, within, if_neg (passed.hook_notMem inlines), layout, shownParts,
    inlines.verbatim?_eq_none, inlines.found]
  exact shown_eq_plain_of_apart inlines.hookless
    (coherent.coherent (.head (.hook inlines.found) passed.reached)) fun _ _ inside identity =>
      List.not_mem_cons_of_ne_of_not_mem (by simp)
        (passed.container_notMem inlines coherent inside identity)

end Passed

/-! The text of a value in which hooks are replaced. -/

section Texts

variable (inlines : Inlines name display hooks hooks') (coherent : CoherentWith hooks value)
include inlines coherent

/-- Within some levels a value keeps its text, except where the hook itself is replaced and what it
shows looks different one level further in. -/
theorem shown_inlined (passed : Passed hooks value around inner)
    (inlined : Inlined name display inner inner') (within : around ≠ [])
    (alike : Replaced name display inner inner' →
      plain (around.length + 1) display = plain around.length display) :
    shown hooks around inner = shown hooks' around inner' := by
  -- The induction is along the descent, and from the second level on everything looks alike.
  suffices ∀ place : List Node × Value, ∀ inner', Passed hooks value place.1 place.2 →
      Inlined name display place.2 inner' → place.1 ≠ [] →
      (Replaced name display place.2 inner' →
        plain (place.1.length + 1) display = plain place.1.length display) →
      shown hooks place.1 place.2 = shown hooks' place.1 inner' from
    this (around, inner) inner' passed inlined within alike
  intro place
  induction place using (wellFounded_enters hooks).induction with
  | _ place ih =>
      intro inner' passed inlined within alike
      obtain ⟨around, inner⟩ := place
      by_cases replaced : Replaced name display inner inner'
      · obtain ⟨rfl, rfl⟩ := replaced
        rw [passed.shown_display inlines coherent, passed.shown_hook inlines coherent,
          alike ⟨rfl, rfl⟩]
      · cases opens : inner.mark? with
        | none =>
            rw [inlined.eq_of_mark?_eq_none opens, shown_of_mark?_eq_none opens,
              shown_of_mark?_eq_none opens]
        | some node =>
            rw [shown_eq_layout opens, shown_eq_layout ((inlined.mark?_eq replaced).trans opens)]
            refine within_congr fun fresh => ?_
            have parts := inlined.shownParts replaced inlines
            have deep : shownDepth ≤ (node :: around).length :=
              Nat.succ_le_succ (List.length_pos_iff.mpr within)
            rw [inlined.layout_eq replaced inlines, map_eq_map parts fun one other together => ?_]
            have enters := enters_of_mem_shownParts opens fresh (List.of_mem_zip together).1
            exact ih _ enters other (passed.down opens enters.leads)
              (List.forall₂_zip parts together) (List.cons_ne_nil _ _) fun _ => plain_succ deep

theorem texts_inlined {Related : String → String → Prop} (refl : ∀ text, Related text text)
    (inlined : Inlined name display value value') (kept : ¬ Replaced name display value value')
    (opens : value.mark? = some node)
    (displays : (hooked name, display) ∈ (shownParts hooks value).zip (shownParts hooks' value') →
      Related (plain 2 display) (plain 1 display)) :
    List.Forall₂ Related ((shownParts hooks value).map (shown hooks [node]))
      ((shownParts hooks' value').map (shown hooks' [node])) := by
  have parts := inlined.shownParts kept inlines
  rw [List.forall₂_map_left_iff, List.forall₂_map_right_iff, List.forall₂_iff_zip]
  refine ⟨parts.length_eq, fun {one other} together => ?_⟩
  have enters := enters_of_mem_shownParts opens List.not_mem_nil (List.of_mem_zip together).1
  have passed := (Passed.start value).down opens enters.leads
  by_cases replaced : Replaced name display one other
  · obtain ⟨rfl, rfl⟩ := replaced
    rw [passed.shown_display inlines coherent, passed.shown_hook inlines coherent]
    exact displays together
  · rw [shown_inlined inlines coherent passed (List.forall₂_zip parts together)
      (List.cons_ne_nil _ _) fun again => absurd again replaced]
    exact refl _

theorem shown_inlined_iff (inlined : Inlined name display value value')
    (kept : ¬ Replaced name display value value') (opens : value.mark? = some node) :
    shown hooks' [] value' = shown hooks [] value ↔
      ((hooked name, display) ∈ (shownParts hooks value).zip (shownParts hooks' value') →
        plain 2 display = plain 1 display) := by
  rw [shown_eq_layout opens, shown_eq_layout ((inlined.mark?_eq kept).trans opens), within, within,
    if_neg List.not_mem_nil, if_neg List.not_mem_nil, inlined.layout_eq kept inlines]
  have shallow : [node].length ≤ shownDepth := Nat.le_succ 1
  constructor
  · intro same together
    -- Of the two texts of what the hook shows one is not longer, and so it is wherever they stand.
    have equal : (shownParts hooks value).map (shown hooks [node]) =
        (shownParts hooks' value').map (shown hooks' [node]) := by
      rcases le_total (plain 2 display).length (plain 1 display).length with shorter | longer
      · exact layout_inj shallow (List.length_map _) (texts_inlined inlines coherent
          (fun _ => le_rfl) inlined kept opens fun _ => shorter) same.symm
      · refine (layout_inj shallow ?_ (List.Forall₂.flip (texts_inlined inlines coherent
          (fun _ => le_rfl) inlined kept opens fun _ => longer)) same).symm
        rw [List.length_map, (inlined.shownParts kept inlines).length_eq]
    have enters := enters_of_mem_shownParts opens List.not_mem_nil (List.of_mem_zip together).1
    have passed := (Passed.start value).down opens enters.leads
    rw [← List.forall₂_eq_eq_eq, List.forall₂_map_left_iff, List.forall₂_map_right_iff] at equal
    have shownAlike := List.forall₂_zip equal together
    rwa [passed.shown_display inlines coherent, passed.shown_hook inlines coherent] at shownAlike
  · intro alike
    have equal := texts_inlined inlines coherent (fun _ => rfl) inlined kept opens alike
    rw [List.forall₂_eq_eq_eq] at equal
    rw [equal]

end Texts

/-- Replacing a hook by what it shows keeps the text of a value exactly if what it shows looks the
same one level further in where this counts: at the value itself, and directly in it. -/
theorem inspect_inlined_iff (inlines : Inlines name display hooks hooks')
    (coherent : CoherentWith hooks value) (inlined : Inlined name display value value') :
    inspect hooks' value' = inspect hooks value ↔
      (Replaced name display value value' → plain 1 display = plain 0 display) ∧
      ((hooked name, display) ∈ (shownParts hooks value).zip (shownParts hooks' value') →
        plain 2 display = plain 1 display) := by
  rw [inspect_eq_shown, inspect_eq_shown]
  by_cases replaced : Replaced name display value value'
  · obtain ⟨rfl, rfl⟩ := replaced
    have passed : Passed hooks (hooked name) [] (hooked name) := .start _
    rw [passed.shown_display inlines coherent, passed.shown_hook inlines coherent]
    refine ⟨fun same => ⟨fun _ => same.symm, fun together => ?_⟩,
      fun alike => (alike.1 ⟨rfl, rfl⟩).symm⟩
    have again := (List.of_mem_zip together).1
    rw [shownParts, inlines.verbatim?_eq_none, inlines.found] at again
    cases List.mem_singleton.mp again
    exact absurd .refl (inlines.hookless name)
  · rw [and_iff_right fun again => absurd again replaced]
    cases opens : value.mark? with
    | some node => exact shown_inlined_iff inlines coherent inlined replaced opens
    | none =>
        rw [inlined.eq_of_mark?_eq_none opens, shown_of_mark?_eq_none opens,
          shown_of_mark?_eq_none opens, shownParts_of_mark?_eq_none opens]
        simp

def boxHooks : Hooks := [("box", list 1 [int 1]), ("cover", hooked "box")]

def openHooks : Hooks := [("box", list 1 [int 1]), ("cover", list 1 [int 1])]

theorem inlines_box : Inlines "box" (list 1 [int 1]) boxHooks openHooks where
  found := rfl
  notText := nofun
  hookless := by
    intro name inside
    have scalar : Inside (hooked name) (int 1) ↔ hooked name = int 1 := inside_scalar_iff rfl
    simp [inside_list_iff, scalar] at inside
  displays := by
    intro other
    simp only [boxHooks, openHooks, Assoc.get?]
    split
    · exact .some (.refl _)
    · split
      · exact .some .here
      · exact .none

theorem reached_box :
    Reached boxHooks inner (hooked "box") ↔
      inner = hooked "box" ∨ inner = list 1 [int 1] ∨ inner = int 1 := by
  have scalar : Reached boxHooks inner (int 1) ↔ inner = int 1 := by
    refine reached_closed_iff fun next leads => ?_
    cases leads with
    | part part => cases part
  simp [reached_hooked_iff, boxHooks, Assoc.get?, reached_list_iff, ← scalar]

def boxes : Value := object 2 none [("boxes", list 3 [hooked "box", hooked "cover"])]

def openBoxes : Value := object 2 none [("boxes", list 3 [list 1 [int 1], hooked "cover"])]

theorem reached_boxes :
    Reached boxHooks inner boxes ↔ inner = boxes ∨ inner = list 3 [hooked "box", hooked "cover"] ∨
      inner = hooked "cover" ∨ inner = hooked "box" ∨ inner = list 1 [int 1] ∨ inner = int 1 := by
  have cover : Reached boxHooks inner (hooked "cover") ↔
      inner = hooked "cover" ∨ Reached boxHooks inner (hooked "box") := by
    rw [reached_hooked_iff]
    simp [boxHooks, Assoc.get?]
  simp only [boxes, reached_object_iff, reached_list_iff, cover, reached_box, List.mem_cons,
    List.not_mem_nil, or_false, exists_eq_or_imp, exists_eq_left]
  tauto

theorem coherent_boxes : CoherentWith boxHooks boxes := by
  intro one other node oneReached otherReached oneIdentity otherIdentity
  rcases reached_boxes.mp oneReached with rfl | rfl | rfl | rfl | rfl | rfl <;>
    rcases reached_boxes.mp otherReached with rfl | rfl | rfl | rfl | rfl | rfl <;>
    cases oneIdentity <;> first | rfl | cases otherIdentity

theorem inlined_boxes : Inlined "box" (list 1 [int 1]) boxes openBoxes :=
  .object rfl (.cons (.list (.cons .here (.cons (.refl _) .nil))) .nil)

theorem inspect_openBoxes :
    inspect openHooks openBoxes = inspect boxHooks boxes ∧
      inspect openHooks openBoxes = "\x7b boxes: [[Array], [Array]] \x7d" := by
  refine ⟨(inspect_inlined_iff inlines_box coherent_boxes inlined_boxes).mpr ⟨?_, ?_⟩, by decide⟩
  · rintro ⟨same, _⟩
    cases same
  · simp [shownParts, boxes, openBoxes]

/-- Within one level a hook is already too deep for what it shows. -/
theorem not_all_inlined_alike :
    ¬ ∀ name display hooks hooks' value value', Inlines name display hooks hooks' →
      CoherentWith hooks value → Inlined name display value value' →
      inspect hooks' value' = inspect hooks value := by
  intro alike
  have coherent : CoherentWith boxHooks (list 0 [hooked "box"]) := by
    intro one other node oneReached otherReached oneIdentity otherIdentity
    simp only [reached_list_iff, List.mem_singleton, exists_eq_left, reached_box]
      at oneReached otherReached
    rcases oneReached with rfl | rfl | rfl | rfl <;>
      rcases otherReached with rfl | rfl | rfl | rfl <;>
      cases oneIdentity <;> first | rfl | cases otherIdentity
  have same := alike "box" (list 1 [int 1]) boxHooks openHooks (list 0 [hooked "box"])
    (list 0 [list 1 [int 1]]) inlines_box coherent (.list (.cons .here .nil))
  revert same
  decide

end FieldLookahead.Value
