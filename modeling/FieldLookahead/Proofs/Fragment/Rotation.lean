import FieldLookahead.Fragment.Cycle
import FieldLookahead.Proofs.Echo
import Mathlib.Data.List.Cycle

namespace FieldLookahead.Fragment

/-! Cycles that differ only in where they begin have one rotation in common. -/

theorem least_mem (first : String) (others : List String) :
    least first others ∈ first :: others := by
  induction others generalizing first with
  | nil => exact List.mem_cons_self
  | cons other rest ih =>
      rw [least, List.foldl_cons]
      split
      · exact List.mem_cons_of_mem _ (ih other)
      · exact List.cons_subset_cons _ (List.subset_cons_self _ _) (ih first)

theorem least_le (first : String) (others : List String) :
    ∀ name ∈ first :: others, least first others ≤ name := by
  induction others generalizing first with
  | nil => exact fun name member => List.mem_singleton.mp member ▸ String.le_refl _
  | cons other rest ih =>
      intro name member
      rw [least, List.foldl_cons]
      split
      · next less =>
          rcases List.mem_cons.mp member with rfl | member
          · exact String.le_trans (ih _ _ List.mem_cons_self)
              (String.not_lt.mp (String.lt_asymm less))
          · exact ih _ _ member
      · next notLess =>
          rcases List.mem_cons.mp member with rfl | member
          · exact ih _ _ List.mem_cons_self
          rcases List.mem_cons.mp member with rfl | member
          · exact String.le_trans (ih _ _ List.mem_cons_self) (String.not_lt.mp notLess)
          · exact ih _ _ (List.mem_cons_of_mem _ member)

open List in
theorem rotation_isRotated (names : List String) : rotation names ~r names := by
  cases names with
  | nil => exact .refl _
  | cons first others =>
      rw [rotation]
      refine isRotated_append.trans ?_
      rw [takeWhile_append_dropWhile]

theorem exists_rotation_eq_cons {names : List String} (filled : names ≠ []) :
    ∃ start rest, rotation names = start :: rest ∧ start ∈ names ∧
      ∀ name ∈ names, start ≤ name := by
  match names with
  | first :: others =>
      obtain ⟨before, after, split, fresh⟩ := List.eq_append_cons_of_mem (least_mem first others)
      have skipped : ∀ name ∈ before, (name ≠ least first others : Bool) = true :=
        fun name member => decide_eq_true fun same => fresh (same ▸ member)
      refine ⟨least first others, after ++ before, ?_, least_mem first others,
        least_le first others⟩
      rw [rotation, split, List.dropWhile_append_of_pos skipped,
        List.takeWhile_append_of_pos skipped]
      simp

open List in
theorem eq_of_isRotated_of_cons {first : String} {left right : List String}
    (distinct : (first :: left).Nodup) (rotated : first :: left ~r first :: right) :
    left = right := by
  obtain ⟨shift, same⟩ := rotated
  rw [← rotate_mod] at same
  have low : shift % (first :: left).length < (first :: left).length :=
    Nat.mod_lt _ (Nat.succ_pos _)
  have begins : (first :: left)[shift % (first :: left).length] = (first :: left)[0] := by
    have head := head?_rotate low
    rw [same, getElem?_eq_getElem low] at head
    exact (Option.some.inj head).symm
  rw [distinct.getElem_inj_iff.mp begins, rotate_zero] at same
  exact (cons.inj same).2

open List in
/-- Two lists of distinct names have the same rotation just if they are the same cycle. -/
theorem rotation_eq_iff {left right : List String} (distinct : left.Nodup) :
    rotation left = rotation right ↔ left ~r right := by
  constructor
  · intro same
    exact (rotation_isRotated left).symm.trans (same ▸ rotation_isRotated right)
  · intro rotated
    by_cases filled : left = []
    · subst filled
      rw [isRotated_nil_iff'.mp rotated]
    · have filled' : right ≠ [] := fun empty => filled (isRotated_nil_iff.mp (empty ▸ rotated))
      obtain ⟨start, rest, rotates, member, low⟩ := exists_rotation_eq_cons filled
      obtain ⟨start', rest', rotates', member', low'⟩ := exists_rotation_eq_cons filled'
      have same : start = start' :=
        String.le_antisymm (low _ (rotated.mem_iff.mpr member'))
          (low' _ (rotated.mem_iff.mp member))
      subst same
      have between : start :: rest ~r start :: rest' := by
        rw [← rotates, ← rotates']
        exact (rotation_isRotated left).trans (rotated.trans (rotation_isRotated right).symm)
      have distinctRotation : (start :: rest).Nodup := by
        rw [← rotates]
        exact (rotation_isRotated left).nodup_iff.mpr distinct
      rw [rotates, rotates', eq_of_isRotated_of_cons distinctRotation between]

theorem distinctCycles_eq (known : Seen (List String)) (cycles : List (List String)) :
    distinctCycles known cycles =
      firstBy (fun cycle => rotation cycle.dropLast)
        (cycles.filter fun cycle => rotation cycle.dropLast ∉ known.list) := by
  induction cycles generalizing known with
  | nil => rfl
  | cons cycle rest ih =>
      rw [distinctCycles]
      split
      · next seen =>
          rw [List.filter_cons_of_neg (by simpa using seen), ih]
      · next fresh =>
          rw [List.filter_cons_of_pos (by simpa using fresh), ih]
          convert (firstBy_cons_filter (fun cycle => rotation cycle.dropLast) cycle known.list
            rest).symm
          exact known.list_push _

theorem distinctCycles_empty (cycles : List (List String)) :
    distinctCycles .empty cycles = firstBy (fun cycle => rotation cycle.dropLast) cycles := by
  rw [distinctCycles_eq]
  simp

end FieldLookahead.Fragment
