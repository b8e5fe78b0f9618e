import FieldLookahead.OrderedMap
import FieldLookahead.Proofs.Lookahead.Accumulation
import Mathlib.Data.List.Forall2
import Mathlib.Data.List.Induction

namespace FieldLookahead

/-! Maps that have the same keys in the same order, with related values, and maps of entries
whose keys are distinct. -/

variable {κ α β : Type}

/-- Entries under the same keys, with related values. -/
def Assoc.Matches (Related : α → β → Prop) (left : List (κ × α)) (right : List (κ × β)) : Prop :=
  List.Forall₂ (fun one other => other.1 = one.1 ∧ Related one.2 other.2) left right

namespace Assoc.Matches

variable {Related : α → β → Prop} {left : List (κ × α)} {right : List (κ × β)}

theorem trans {γ : Type} {Related' : β → γ → Prop} {last : List (κ × γ)}
    (first : Matches Related left right) (second : Matches Related' right last) :
    Matches (fun one other => ∃ middle, Related one middle ∧ Related' middle other) left last := by
  induction first generalizing last with
  | nil =>
      cases second
      exact .nil
  | cons here _ ih =>
      cases second with
      | cons next rest =>
          exact .cons ⟨next.1.trans here.1, _, here.2, next.2⟩ (ih rest)

variable [DecidableEq κ]

theorem get? (matched : Matches Related left right) (key : κ) :
    Option.Rel Related (Assoc.get? key left) (Assoc.get? key right) := by
  induction matched with
  | nil => exact .none
  | @cons one other _ _ here _ ih =>
      obtain ⟨named, related⟩ := here
      rw [Assoc.get?, Assoc.get?, named]
      split
      · exact .some related
      · exact ih

theorem getD (matched : Matches Related left right) (key : κ) {value : α} {other : β}
    (related : Related value other) :
    Related ((Assoc.get? key left).getD value) ((Assoc.get? key right).getD other) := by
  have found := matched.get? key
  revert found
  cases Assoc.get? key left <;> cases Assoc.get? key right <;> intro found <;> cases found
  · exact related
  · assumption

theorem insert (matched : Matches Related left right) (key : κ) {value : α} {other : β}
    (related : Related value other) :
    Matches Related (Assoc.insert key value left) (Assoc.insert key other right) := by
  induction matched with
  | nil => exact .cons ⟨rfl, related⟩ .nil
  | @cons one two _ _ here there ih =>
      rw [Assoc.insert, Assoc.insert, here.1]
      split
      · exact .cons ⟨rfl, related⟩ there
      · exact .cons ⟨rfl, here.2⟩ ih

theorem exists_left (matched : Matches Related left right) {key : κ} {other : β}
    (present : Assoc.get? key right = some other) :
    ∃ one, Assoc.get? key left = some one ∧ Related one other := by
  have related := matched.get? key
  rw [present] at related
  cases found : Assoc.get? key left with
  | none =>
      rw [found] at related
      cases related
  | some one =>
      rw [found] at related
      cases related with
      | some related => exact ⟨one, rfl, related⟩

theorem insert_right (matched : Matches Related left right) {key : κ} {value : α}
    (found : Assoc.get? key left = some value) {other : β} (related : Related value other) :
    Matches Related left (Assoc.insert key other right) := by
  have inserted := matched.insert key related
  rwa [Assoc.insert_of_get? found] at inserted

end Assoc.Matches

namespace Assoc

variable [DecidableEq κ]

theorem insert_insert (key : κ) (old value : α) (entries : List (κ × α)) :
    insert key value (insert key old entries) = insert key value entries := by
  induction entries with
  | nil => simp [insert]
  | cons entry rest ih =>
      by_cases same : entry.1 = key
      · simp [insert, same]
      · simp [insert, same, ih]

theorem insert_comm {key other : κ} (differs : key ≠ other) {entries : List (κ × α)}
    (known : key ∈ keys entries) (value later : α) :
    insert other later (insert key value entries) =
      insert key value (insert other later entries) := by
  induction entries with
  | nil => cases known
  | cons entry rest ih =>
      by_cases same : entry.1 = key
      · simp [insert, same, differs]
      · have known : key ∈ keys rest := (List.mem_cons.mp known).resolve_left (Ne.symm same)
        by_cases here : entry.1 = other
        · simp [insert, here, Ne.symm differs]
        · simp [insert, same, here, ih known]

end Assoc

theorem OrderedMap.eq_of_entries {left right : OrderedMap κ α}
    (same : left.entries = right.entries) : left = right := by
  cases left
  cases right
  cases same
  rfl

theorem OrderedMap.ofList_matches [DecidableEq κ] {Related : α → β → Prop}
    {left : List (κ × α)} {right : List (κ × β)} (matched : Assoc.Matches Related left right) :
    Assoc.Matches Related (OrderedMap.ofList left).entries (OrderedMap.ofList right).entries := by
  have collected : ∀ {before : OrderedMap κ α} {other : OrderedMap κ β},
      Assoc.Matches Related before.entries other.entries →
      Assoc.Matches Related
        (left.foldl (fun map entry => map.insert entry.1 entry.2) before).entries
        (right.foldl (fun map entry => map.insert entry.1 entry.2) other).entries := by
    induction matched with
    | nil => exact id
    | cons here _ ih =>
        intro before other matched
        rw [List.foldl_cons, List.foldl_cons, here.1]
        exact ih (matched.insert _ here.2)
  exact collected .nil

theorem OrderedMap.entries_ofList [DecidableEq κ] {entries : List (κ × α)}
    (distinct : (Assoc.keys entries).Nodup) : (OrderedMap.ofList entries).entries = entries := by
  induction entries using List.reverseRecOn with
  | nil => rfl
  | append_singleton entries last ih =>
      rw [Assoc.keys, List.map_append, List.nodup_append'] at distinct
      have fresh : last.1 ∉ Assoc.keys entries := fun member =>
        distinct.2.2 member List.mem_cons_self
      have filed : OrderedMap.ofList (entries ++ [last]) =
          (OrderedMap.ofList entries).insert last.1 last.2 := by
        simp [OrderedMap.ofList]
      rw [filed, OrderedMap.entries_insert, ih distinct.1,
        Assoc.insert_of_missing (Assoc.get?_eq_none.mpr fresh)]

theorem OrderedMap.entries_ofList_eq [DecidableEq κ] (entries : List (κ × α)) :
    (OrderedMap.ofList entries).entries = Assoc.ofList entries :=
  (List.foldl_hom OrderedMap.entries fun _ _ => rfl).symm

namespace Assoc

variable [DecidableEq κ]

theorem ofList_of_nodup {entries : List (κ × α)} (distinct : (keys entries).Nodup) :
    ofList entries = entries := by
  rw [← OrderedMap.entries_ofList_eq, OrderedMap.entries_ofList distinct]

end Assoc
end FieldLookahead
