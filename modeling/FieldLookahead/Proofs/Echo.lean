import Mathlib.Data.List.Induction
import Mathlib.Data.List.Nodup

namespace FieldLookahead

/-! Lists that repeat some of what came before. -/

variable {α β : Type}

/-- The longer list is the shorter one, except that it also repeats what has been seen. -/
inductive Echoes : List α → List α → List α → Prop
  | nil {seen : List α} : Echoes seen [] []
  | fresh {seen short long : List α} {item : α} (rest : Echoes (item :: seen) short long) :
      Echoes seen (item :: short) (item :: long)
  | again {seen short long : List α} {item : α} (member : item ∈ seen)
      (rest : Echoes seen short long) : Echoes seen short (item :: long)

namespace Echoes

variable {seen short long : List α}

theorem refl (seen items : List α) : Echoes seen items items := by
  induction items generalizing seen with
  | nil => exact .nil
  | cons item rest ih => exact .fresh (ih _)

theorem of_subset {items : List α} (within : items ⊆ seen) : Echoes seen [] items := by
  induction items with
  | nil => exact .nil
  | cons item rest ih =>
      obtain ⟨member, within⟩ := List.cons_subset.mp within
      exact .again member (ih within)

theorem mono {more : List α} (echoes : Echoes seen short long) (within : seen ⊆ more) :
    Echoes more short long := by
  induction echoes generalizing more with
  | nil => exact .nil
  | fresh _ ih => exact .fresh (ih (List.cons_subset_cons _ within))
  | again member _ ih => exact .again (within member) (ih within)

theorem append {short' long' : List α} (first : Echoes seen short long)
    (second : Echoes (seen ++ long) short' long') :
    Echoes seen (short ++ short') (long ++ long') := by
  induction first with
  | nil => simpa using second
  | fresh _ ih => exact .fresh (ih (second.mono List.perm_middle.subset))
  | again member _ ih =>
      refine .again member (ih (second.mono (List.append_subset.mpr ⟨?_, ?_⟩)))
      · exact List.subset_append_left _ _
      · exact List.cons_subset.mpr ⟨List.mem_append_left _ member, List.subset_append_right _ _⟩

theorem trans {longer : List α} (first : Echoes seen short long)
    (second : Echoes seen long longer) : Echoes seen short longer := by
  induction second generalizing short with
  | nil => exact first
  | fresh _ ih =>
      cases first with
      | fresh rest => exact .fresh (ih rest)
      | again member rest =>
          refine .again member ((ih (rest.mono (List.subset_cons_self _ _))).mono ?_)
          exact List.cons_subset.mpr ⟨member, List.Subset.refl _⟩
  | again member _ ih => exact .again member (ih first)

theorem map (echoes : Echoes seen short long) (convert : α → β) :
    Echoes (seen.map convert) (short.map convert) (long.map convert) := by
  induction echoes with
  | nil => exact .nil
  | fresh _ ih => exact .fresh ih
  | again member _ ih => exact .again (List.mem_map_of_mem member) ih

theorem mem_of_mem_long (echoes : Echoes seen short long) {item : α} (member : item ∈ long) :
    item ∈ seen ∨ item ∈ short := by
  induction echoes with
  | nil => cases member
  | fresh _ ih =>
      rcases List.mem_cons.mp member with rfl | member
      · exact .inr List.mem_cons_self
      · rcases ih member with inside | inside
        · exact (List.mem_cons.mp inside).elim (fun same => .inr (same ▸ List.mem_cons_self)) .inl
        · exact .inr (List.mem_cons_of_mem _ inside)
  | again earlier _ ih =>
      rcases List.mem_cons.mp member with rfl | member
      · exact .inl earlier
      · exact ih member

end Echoes

/-! The first items under each label. -/

section First

variable [DecidableEq β] (label : α → β)

/-- The items without those whose label has come before. -/
def firstBy (items : List α) : List α :=
  items.eraseDupsBy fun one other => label one == label other

theorem firstBy_cons (item : α) (rest : List α) :
    firstBy label (item :: rest) =
      item :: firstBy label (rest.filter fun other => label other ≠ label item) := by
  rw [firstBy, List.eraseDupsBy_cons]
  simp [firstBy]

theorem firstBy_eq_self {items : List α} (distinct : (items.map label).Nodup) :
    firstBy label items = items := by
  induction items with
  | nil => rfl
  | cons item rest ih =>
      obtain ⟨fresh, distinct⟩ := List.nodup_cons.mp distinct
      have kept : (rest.filter fun other => label other ≠ label item) = rest := by
        refine List.filter_eq_self.mpr fun other member => decide_eq_true fun same => ?_
        exact fresh (same ▸ List.mem_map_of_mem member)
      rw [firstBy_cons, kept, ih distinct]

theorem firstBy_concat (items : List α) (last : α) :
    firstBy label (items ++ [last]) =
      if label last ∈ items.map label then firstBy label items
      else firstBy label items ++ [last] := by
  match items with
  | [] => rfl
  | item :: rest =>
      -- What follows is filtered before the next step, so the recursion is on the length.
      have shorter := List.length_filter_le (fun other => label other ≠ label item) rest
      rw [List.cons_append, firstBy_cons, firstBy_cons, List.filter_append]
      by_cases same : label last = label item
      · rw [List.filter_cons_of_neg (by simpa using same), List.filter_nil, List.append_nil]
        exact (if_pos (same ▸ List.mem_map_of_mem List.mem_cons_self)).symm
      · rw [List.filter_cons_of_pos (by simpa using same), List.filter_nil, firstBy_concat]
        have members : label last ∈ (rest.filter fun other => label other ≠ label item).map label ↔
            label last ∈ (item :: rest).map label := by
          simp only [List.mem_map, List.mem_filter, List.mem_cons, decide_eq_true_eq]
          constructor
          · rintro ⟨other, ⟨member, _⟩, equal⟩
            exact ⟨other, .inr member, equal⟩
          · rintro ⟨other, rfl | member, equal⟩
            · exact absurd equal.symm same
            · exact ⟨other, ⟨member, fun again => same (equal.symm.trans again)⟩, equal⟩
        simp only [members]
        split <;> rfl
  termination_by items.length
  decreasing_by
    simp only [List.length_cons]
    exact Nat.lt_succ_of_le shorter

theorem firstBy_sublist (items : List α) : (firstBy label items).Sublist items := by
  induction items using List.reverseRecOn with
  | nil => exact .slnil
  | append_singleton items last ih =>
      rw [firstBy_concat]
      split
      · exact ih.trans (List.sublist_append_left _ _)
      · exact ih.append (.refl _)

theorem mem_map_firstBy {items : List α} {mark : β} :
    mark ∈ (firstBy label items).map label ↔ mark ∈ items.map label := by
  induction items using List.reverseRecOn with
  | nil => rfl
  | append_singleton items last ih =>
      rw [firstBy_concat]
      split
      · next known =>
          simp only [List.map_append, List.map_cons, List.map_nil, List.mem_append,
            List.mem_singleton, ih]
          exact ⟨.inl, fun member => member.elim id (· ▸ known)⟩
      · rw [List.map_append, List.map_append, List.mem_append, List.mem_append, ih]

theorem nodup_map_firstBy (items : List α) : ((firstBy label items).map label).Nodup := by
  induction items using List.reverseRecOn with
  | nil => exact List.nodup_nil
  | append_singleton items last ih =>
      rw [firstBy_concat]
      split
      · exact ih
      · next fresh =>
          rw [List.map_append, List.map_singleton]
          exact List.nodup_append.mpr ⟨ih, List.nodup_singleton _, fun mark member other last =>
            (List.mem_singleton.mp last) ▸ fun same =>
              fresh (same ▸ (mem_map_firstBy label).mp member)⟩

theorem find?_firstBy (items : List α) (mark : β) :
    (firstBy label items).find? (fun item => label item = mark) =
      items.find? fun item => label item = mark := by
  induction items using List.reverseRecOn with
  | nil => rfl
  | append_singleton items last ih =>
      rw [firstBy_concat, List.find?_append]
      split
      · next known =>
          rw [ih]
          by_cases same : label last = mark
          · obtain ⟨item, member, equal⟩ := List.mem_map.mp known
            have found : (items.find? fun item => label item = mark).isSome :=
              List.find?_isSome.mpr ⟨item, member, decide_eq_true (equal.trans same)⟩
            rw [Option.or_of_isSome found]
          · simp [same]
      · rw [List.find?_append, ih]

theorem firstBy_cons_filter (item : α) (known : List β) (rest : List α) :
    firstBy label (item :: rest.filter fun other => label other ∉ known) =
      item :: firstBy label (rest.filter fun other => label other ∉ label item :: known) := by
  rw [firstBy_cons, List.filter_filter]
  refine congrArg (fun kept => item :: firstBy label kept) (List.filter_congr fun other _ => ?_)
  simp

theorem Echoes.firstBy_filter_eq {seen short long : List α} (echoes : Echoes seen short long) :
    firstBy label (short.filter fun item => label item ∉ seen.map label) =
      firstBy label (long.filter fun item => label item ∉ seen.map label) := by
  induction echoes with
  | nil => rfl
  | @fresh seen short long item _ ih =>
      by_cases known : label item ∈ seen.map label
      · have same : ∀ other, label other ∉ (item :: seen).map label ↔
            label other ∉ seen.map label := by
          intro other
          rw [List.map_cons, List.mem_cons, not_or]
          exact ⟨And.right, fun absent => ⟨fun equal => absent (equal ▸ known), absent⟩⟩
        simp only [same] at ih
        rw [List.filter_cons_of_neg (by simpa using known),
          List.filter_cons_of_neg (by simpa using known), ih]
      · rw [List.filter_cons_of_pos (by simpa using known),
          List.filter_cons_of_pos (by simpa using known), firstBy_cons_filter,
          firstBy_cons_filter]
        exact congrArg (item :: ·) ih
  | @again seen short long item member _ ih =>
      rw [ih, List.filter_cons_of_neg]
      simpa using ⟨item, member, rfl⟩

theorem Echoes.firstBy_eq {short long : List α} (echoes : Echoes [] short long) :
    firstBy label short = firstBy label long := by
  simpa using echoes.firstBy_filter_eq label

end First
end FieldLookahead
