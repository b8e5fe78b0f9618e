import FieldLookahead.Proofs.Fragment.Runs

namespace FieldLookahead

/-! Tables of documents. Whether the fragments of a document make a table does not depend on
their order, and what selections unfold into depends only on the fragments that they reach. -/

namespace Query

def Document.fragment? (document : Document) (name : String) : Option Fragment :=
  document.fragments.find? fun fragment => fragment.name = name

/-- A name is spread by some selections, or by a fragment whose own name is so reached. -/
inductive Reaches (fragment? : String → Option Fragment) (selections : List Selection) :
    String → Prop
  | spread {name : String} {position : Syntax.Position} {path : List Nat}
      (stands : StandsAt (.spread name position) selections path) :
      Reaches fragment? selections name
  | through {outer name : String} {fragment : Fragment} {position : Syntax.Position}
      {path : List Nat} (reaches : Reaches fragment? selections outer)
      (found : fragment? outer = some fragment)
      (stands : StandsAt (.spread name position) fragment.selections path) :
      Reaches fragment? selections name

def Document.Spreads (document : Document) (outer inner : String) : Prop :=
  SpreadsAmong document.fragments outer inner

/-- The fragments of a document have different names, spread only each other, and do not lead
back to themselves. -/
structure Document.Fit (document : Document) : Prop extends FitTogether document.fragments where
  distinct : (document.fragments.map (·.name)).Nodup

theorem Document.Fit.of_perm {document other : Document} (perm : document.Perm other)
    (fit : document.Fit) : other.Fit := by
  have fragments : document.fragments.Perm other.fragments := perm.filterMap _
  exact ⟨fit.toFitTogether.of_perm fragments, (fragments.map _).nodup_iff.mp fit.distinct⟩

namespace Reaches

variable {fragment? : String → Option Fragment} {inner outer : List Selection} {name : String}

theorem mono (within : spreadsOfAll inner ⊆ spreadsOfAll outer)
    (reaches : Reaches fragment? inner name) : Reaches fragment? outer name := by
  induction reaches with
  | spread stands =>
      obtain ⟨path, stands⟩ := mem_spreadsOfAll_iff.mp
        (within (mem_spreadsOfAll_iff.mpr ⟨_, stands⟩))
      exact .spread stands
  | through _ found stands ih => exact .through ih found stands

theorem rest {first : Selection} {rest : List Selection} (reaches : Reaches fragment? rest name) :
    Reaches fragment? (first :: rest) name :=
  reaches.mono (List.subset_append_right _ _)

theorem enclosed {selection : Selection} {rest : List Selection}
    (reaches : Reaches fragment? selection.enclosed name) :
    Reaches fragment? (selection :: rest) name := by
  refine reaches.mono (List.subset_append_of_subset_left _ ?_)
  cases selection with
  | field label below | inline condition? position below => exact List.Subset.refl _
  | spread name position => exact List.nil_subset _

theorem head (position : Syntax.Position) (rest : List Selection) :
    Reaches fragment? (.spread name position :: rest) name := by
  have stands : StandsAt (.spread name position) (.spread name position :: rest) [0] := .here rfl
  exact .spread stands

theorem trans {fragment : Fragment} (reaches : Reaches fragment? outer fragment.name)
    (found : fragment? fragment.name = some fragment)
    (beyond : Reaches fragment? fragment.selections name) : Reaches fragment? outer name := by
  induction beyond with
  | spread stands => exact .through reaches found stands
  | through _ found stands ih => exact .through ih found stands

end Reaches
end Query

namespace Fragment

open Query

variable {document : Query.Document} {table : Table} {name : String}

theorem rejection_eq_none_iff {earlier : List Source} {source : Source} :
    rejection earlier source = none ↔ source.name ∉ earlier.map Source.name := by
  simp [rejection]

theorem rejections_eq_nil_iff {earlier sources : List Source} :
    rejections earlier sources = [] ↔
      (sources.map Source.name).Nodup ∧
        ∀ source ∈ sources, source.name ∉ earlier.map Source.name := by
  induction sources generalizing earlier with
  | nil => simp [rejections]
  | cons source rest ih =>
      rw [rejections_cons, List.append_eq_nil_iff, Option.toList_eq_nil_iff,
        rejection_eq_none_iff, ih, List.map_cons, List.nodup_cons, List.forall_mem_cons]
      simp only [List.map_append, List.map_singleton, List.mem_append, List.mem_singleton, not_or]
      constructor
      · rintro ⟨fresh, distinct, others⟩
        have apart : ∀ other ∈ rest, other.name ∉ earlier.map Source.name :=
          fun other member => (others other member).1
        refine ⟨⟨fun member => ?_, distinct⟩, fresh, apart⟩
        obtain ⟨other, inside, same⟩ := List.mem_map.mp member
        exact (others other inside).2 same
      · rintro ⟨⟨fresh, distinct⟩, here, others⟩
        refine ⟨here, distinct, fun other member => ⟨others other member, fun same => ?_⟩⟩
        exact fresh (same ▸ List.mem_map_of_mem member)

def Collection.ofDocument (document : Query.Document) : Collection :=
  (empty.addDocument none document).1

namespace Collection

theorem ofDocument_holds (document : Query.Document) :
    (ofDocument document).Holds (document.fragments.map (⟨·, none⟩)) ∧
      (empty.addDocument none document).2 =
        rejections [] (document.fragments.map (⟨·, none⟩)) :=
  holds_empty.addAll (document.fragments.map (⟨·, none⟩))

theorem get?_ofDocument (document : Query.Document) (name : String) :
    (ofDocument document).get? name = document.fragment? name := by
  rw [get?, (ofDocument_holds document).1.get? name, List.find?_map, Option.map_map,
    Document.fragment?]
  exact Option.map_id_fun' ▸ rfl

theorem fragments_ofDocument (distinct : (document.fragments.map (·.name)).Nodup) :
    (ofDocument document).fragments = document.fragments := by
  have named : ((document.fragments.map (Source.mk · none)).map Source.name).Nodup := by
    rw [List.map_map]
    exact distinct
  rw [fragments, (ofDocument_holds document).1, firstBy_eq_self _ named, List.map_map]
  exact List.map_id _

theorem faults_ofDocument_eq_nil_iff (distinct : (document.fragments.map (·.name)).Nodup) :
    (ofDocument document).faults = [] ↔ document.Fit := by
  rw [faults_eq_nil_iff, fragments_ofDocument distinct]
  exact ⟨fun fit => ⟨fit, distinct⟩, fun fit => fit.toFitTogether⟩

end Collection

namespace Table

theorem table_eq_ok {collection : Collection} :
    collection.table = .ok table ↔ collection.faults = [] ∧ table.collection = collection := by
  rw [Collection.table]
  split
  · next sound =>
      constructor
      · intro made
        cases made
        exact ⟨sound, rfl⟩
      · rintro ⟨_, rfl⟩
        rfl
  · next unsound => simp [unsound]

theorem ofDocument_eq_ok :
    ofDocument document = .ok table ↔
      document.Fit ∧ table.collection = Collection.ofDocument document := by
  have reported := (Collection.ofDocument_holds document).2
  rw [ofDocument]
  by_cases distinct : (document.fragments.map (·.name)).Nodup
  · have accepted : (Collection.empty.addDocument none document).2 = [] := by
      rw [reported, rejections_eq_nil_iff, List.map_map]
      exact ⟨distinct, fun _ _ => List.not_mem_nil⟩
    rw [show Collection.empty.addDocument none document = (Collection.ofDocument document, []) from
      Prod.ext rfl accepted]
    rw [table_eq_ok, Collection.faults_ofDocument_eq_nil_iff distinct]
  · have refused : (Collection.empty.addDocument none document).2 ≠ [] := by
      rw [reported, Ne, rejections_eq_nil_iff, List.map_map]
      exact fun accepted => distinct accepted.1
    split
    · next same =>
        rw [same] at refused
        exact absurd rfl refused
    · simp only [reduceCtorEq, false_iff, not_and]
      exact fun fit => absurd fit.distinct distinct

/-- The fragments of a document make a table exactly if they are fit for it. -/
theorem exists_ofDocument_iff : (∃ table, ofDocument document = .ok table) ↔ document.Fit := by
  simp only [ofDocument_eq_ok]
  refine ⟨fun ⟨_, fit, _⟩ => fit, fun fit => ?_⟩
  have sound := (Collection.faults_ofDocument_eq_nil_iff fit.distinct).mpr fit
  exact ⟨⟨.ofDocument document, sound⟩, fit, rfl⟩

theorem ofDocument_perm {other : Query.Document} (perm : document.Perm other) :
    (∃ table, ofDocument document = .ok table) ↔ ∃ table, ofDocument other = .ok table := by
  rw [exists_ofDocument_iff, exists_ofDocument_iff]
  exact ⟨.of_perm perm, .of_perm perm.symm⟩

theorem get?_of_ofDocument (made : ofDocument document = .ok table) :
    table.get? = document.fragment? := by
  funext name
  rw [get?, (ofDocument_eq_ok.mp made).2, Collection.get?_ofDocument]

theorem unfold_congr {other : Table} {selections : List Selection}
    (agree : ∀ name, Query.Reaches table.get? selections name →
      other.get? name = table.get? name) :
    other.unfold selections = table.unfold selections := by
  induction selections using table.inductionAll with
  | nil => rfl
  | field label below rest ihBelow ihRest =>
      have here := ihBelow fun name reaches => agree name (.enclosed reaches)
      have there := ihRest fun name reaches => agree name (.rest reaches)
      rw [unfold_cons, unfold_cons, unfoldOne_field, unfoldOne_field, here, there]
  | inline condition? position below rest ihBelow ihRest =>
      have here := ihBelow fun name reaches => agree name (.enclosed reaches)
      have there := ihRest fun name reaches => agree name (.rest reaches)
      rw [unfold_cons, unfold_cons, unfoldOne_inline, unfoldOne_inline, here, there]
  | spread name position fragment rest found ihFragment ihRest =>
      have same : fragment.name = name := (Collection.get?_eq_some_iff.mp found).2
      subst same
      have reached :
          Query.Reaches table.get? (.spread fragment.name position :: rest) fragment.name :=
        .head position rest
      have here := ihFragment fun inner reaches => agree inner (reached.trans found reaches)
      have there := ihRest fun inner reaches => agree inner (.rest reaches)
      rw [unfold_cons, unfold_cons, unfoldOne_spread, unfoldOne_spread, unfoldNamed_found found,
        unfoldNamed_found ((agree _ reached).trans found), here, there]
  | missing name position rest missing ihRest =>
      have reached : Query.Reaches table.get? (.spread name position :: rest) name :=
        .head position rest
      have there := ihRest fun inner reaches => agree inner (.rest reaches)
      rw [unfold_cons, unfold_cons, unfoldOne_spread, unfoldOne_spread, unfoldNamed_missing missing,
        unfoldNamed_missing ((agree _ reached).trans missing), there]

end Table
end Fragment
end FieldLookahead
