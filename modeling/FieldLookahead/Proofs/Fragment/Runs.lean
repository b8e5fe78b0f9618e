import FieldLookahead.Proofs.Fragment.Descent
import FieldLookahead.Proofs.Lookahead.Accumulation
import Mathlib.Data.List.ReduceOption

namespace FieldLookahead

namespace Query

def SpreadsAmong (fragments : List Fragment) (outer inner : String) : Prop :=
  ∃ fragment ∈ fragments, fragment.name = outer ∧
    ∃ position path, StandsAt (.spread inner position) fragment.selections path

/-- Fragments that spread only each other, and do not lead back to themselves. -/
structure FitTogether (fragments : List Fragment) : Prop where
  complete : ∀ outer inner, SpreadsAmong fragments outer inner →
    ∃ fragment ∈ fragments, fragment.name = inner
  acyclic : ∀ name, ¬ Relation.TransGen (SpreadsAmong fragments) name name

theorem FitTogether.of_perm {fragments others : List Fragment} (perm : fragments.Perm others)
    (fit : FitTogether fragments) : FitTogether others := by
  have spreads : SpreadsAmong others = SpreadsAmong fragments := by
    funext outer inner
    simp only [SpreadsAmong, perm.mem_iff]
  constructor
  · rw [spreads]
    intro outer inner spread
    obtain ⟨fragment, member, named⟩ := fit.complete outer inner spread
    exact ⟨fragment, perm.mem_iff.mp member, named⟩
  · rw [spreads]
    exact fit.acyclic

end Query

namespace Fragment

open Query

/-! Collections after any number of additions, and the tables that they make. -/

inductive Addition where
  | fragment (source : Source)
  | document (file? : Option String) (contents : Query.Document)

def Addition.sources : Addition → List Source
  | fragment source => [source]
  | document file? contents => contents.filterMap fun
    | .operation _ => none
    | .fragment defined => some ⟨defined, file?⟩

theorem Addition.sources_document (file? : Option String)
    (contents : Query.Document) :
    (document file? contents).sources =
      contents.fragments.map (⟨·, file?⟩) := by
  rw [sources, Document.fragments, List.map_filterMap]
  refine List.filterMap_congr fun definition _ => ?_
  cases definition <;> rfl

def Source.name (source : Source) : String := source.fragment.name

/-- The fault of a source whose name is that of an earlier one. -/
def rejection (earlier : List Source) (source : Source) : Option Fault :=
  (earlier.find? fun first => first.name = source.name).map fun first =>
    .repeated source.fragment.name ⟨first.file?, first.fragment.position⟩
      ⟨source.file?, source.fragment.position⟩

/-- The faults of some sources, each of which also comes after those before it. -/
def rejections (earlier sources : List Source) : List Fault :=
  (sources.mapIdx fun index source =>
    rejection (earlier ++ sources.take index) source).reduceOption

theorem rejections_cons (earlier rest : List Source) (source : Source) :
    rejections earlier (source :: rest) =
      (rejection earlier source).toList ++ rejections (earlier ++ [source]) rest := by
  rw [rejections, rejections, List.mapIdx_cons, List.take_zero, List.append_nil]
  simp only [List.take_succ_cons, List.append_assoc, List.singleton_append]
  cases rejection earlier source with
  | none => exact List.reduceOption_cons_of_none _
  | some fault => exact List.reduceOption_cons_of_some _ _

namespace Collection

/-- The collection after an addition, with the faults that it reports. A refused fragment leaves
the collection as it is. -/
def apply (collection : Collection) : Addition → Collection × List Fault
  | .fragment source =>
    match collection.add source with
    | .ok larger => (larger, [])
    | .error fault => (collection, [fault])
  | .document file? contents => collection.addDocument file? contents

def applyAll (collection : Collection) : List Addition → Collection × List (List Fault)
  | [] => (collection, [])
  | addition :: rest =>
    let (larger, faults) := collection.apply addition
    let (last, others) := larger.applyAll rest
    (last, faults :: others)

theorem apply_eq_addAll (collection : Collection) (addition : Addition) :
    collection.apply addition = collection.addAll addition.sources := by
  cases addition with
  | document file? contents =>
      rw [apply, Addition.sources_document, addDocument]
  | fragment source =>
      rw [apply, Addition.sources, addAll]
      cases collection.add source <;> rfl

theorem get?_sources (collection : Collection) (name : String) :
    collection.sources.get? name =
      collection.sources.values.find? fun source => source.name = name := by
  have named := collection.named
  rw [OrderedMap.get?, OrderedMap.values]
  generalize collection.sources.entries = entries at named
  induction entries with
  | nil => rfl
  | cons entry rest ih =>
      obtain ⟨own, named⟩ := List.forall_mem_cons.mp named
      rw [Assoc.get?, List.map_cons, List.find?_cons, Source.name, own, ih named]
      by_cases same : entry.1 = name <;> simp [same]

/-- A collection holds the first of all sources that were offered under each name. -/
def Holds (collection : Collection) (offered : List Source) : Prop :=
  collection.sources.values = firstBy Source.name offered

namespace Holds

variable {collection : Collection} {offered : List Source}

theorem get? (holds : collection.Holds offered) (name : String) :
    collection.sources.get? name = offered.find? fun source => source.name = name := by
  rw [get?_sources, holds, find?_firstBy]

theorem add (holds : collection.Holds offered) (source : Source) :
    (∃ fault, rejection offered source = some fault ∧ collection.add source = .error fault ∧
      collection.Holds (offered ++ [source])) ∨
    (rejection offered source = none ∧ collection.add source = .ok (collection.insert source) ∧
      (collection.insert source).Holds (offered ++ [source])) := by
  have filed := holds.get? source.name
  cases found : offered.find? fun first => first.name = source.name with
  | some first =>
      rw [found] at filed
      have known : source.name ∈ offered.map Source.name :=
        List.mem_map.mpr ⟨first, List.mem_of_find?_eq_some found,
          of_decide_eq_true (List.find?_some found :)⟩
      refine .inl ⟨_, by rw [rejection, found]; rfl, ?_, ?_⟩
      · rw [Collection.add, ← Source.name, filed]
        rfl
      · rw [Holds, firstBy_concat, if_pos known, holds]
  | none =>
      rw [found] at filed
      have fresh : source.name ∉ offered.map Source.name := by
        rw [List.mem_map]
        rintro ⟨first, member, same⟩
        exact List.find?_eq_none.mp found first member (decide_eq_true same)
      refine .inr ⟨by rw [rejection, found]; rfl, ?_, ?_⟩
      · rw [Collection.add, ← Source.name, filed]
      · rw [Holds, firstBy_concat, if_neg fresh, ← holds, Collection.insert, OrderedMap.values,
          OrderedMap.entries_insert, ← Source.name, Assoc.insert_of_missing filed, List.map_append]
        rfl

theorem addAll (holds : collection.Holds offered) (sources : List Source) :
    (collection.addAll sources).1.Holds (offered ++ sources) ∧
      (collection.addAll sources).2 = rejections offered sources := by
  induction sources generalizing collection offered with
  | nil => exact ⟨by rwa [Collection.addAll, List.append_nil], rfl⟩
  | cons source rest ih =>
      rw [Collection.addAll, rejections_cons]
      rcases holds.add source with ⟨fault, rejected, refused, holds⟩ | ⟨fresh, added, holds⟩
      · rw [refused, rejected]
        obtain ⟨last, reported⟩ := ih holds
        rw [List.append_assoc] at last
        exact ⟨last, congrArg (fault :: ·) reported⟩
      · rw [added, fresh]
        obtain ⟨last, reported⟩ := ih holds
        rw [List.append_assoc] at last
        exact ⟨last, reported⟩

theorem applyAll (holds : collection.Holds offered) (additions : List Addition) :
    (collection.applyAll additions).1.Holds (offered ++ additions.flatMap Addition.sources) ∧
      (collection.applyAll additions).2 = additions.mapIdx fun index addition =>
        rejections (offered ++ (additions.take index).flatMap Addition.sources)
          addition.sources := by
  induction additions generalizing collection offered with
  | nil => exact ⟨by rwa [Collection.applyAll, List.flatMap_nil, List.append_nil], rfl⟩
  | cons addition rest ih =>
      obtain ⟨next, reported⟩ := holds.addAll addition.sources
      rw [← apply_eq_addAll] at next reported
      obtain ⟨last, others⟩ := ih next
      rw [Collection.applyAll, List.mapIdx_cons, List.flatMap_cons, ← List.append_assoc]
      refine ⟨last, ?_⟩
      simp only [reported, others, List.take_zero, List.flatMap_nil, List.append_nil,
        List.take_succ_cons, List.flatMap_cons, List.append_assoc]

end Holds

theorem holds_empty : empty.Holds [] := rfl

/-! A collection makes a table if nothing in it is undefined or leads back to itself. -/

variable {collection : Collection} {fragment : Query.Fragment} {name : String}

theorem get?_eq_some_iff :
    collection.get? name = some fragment ↔
      fragment ∈ collection.fragments ∧ fragment.name = name := by
  rw [get?, Option.map_eq_some_iff, fragments, OrderedMap.values, List.map_map,
    List.mem_map]
  constructor
  · rintro ⟨source, filed, rfl⟩
    have entry := OrderedMap.get?_eq_some.mp filed
    exact ⟨⟨_, entry, rfl⟩, collection.named _ entry⟩
  · rintro ⟨⟨⟨key, source⟩, entry, rfl⟩, rfl⟩
    refine ⟨source, OrderedMap.get?_eq_some.mpr ?_, rfl⟩
    change (source.fragment.name, source) ∈ collection.sources.entries
    rwa [collection.named _ entry]

theorem mem_names_iff_exists :
    name ∈ collection.names ↔
      ∃ fragment ∈ collection.fragments, fragment.name = name := by
  simp only [mem_names_iff, get?_eq_some_iff]

theorem spreads_iff_among {outer inner : String} :
    collection.Spreads outer inner ↔
      SpreadsAmong collection.fragments outer inner ∧ inner ∈ collection.names := by
  simp only [Spreads, SpreadsAmong, get?_eq_some_iff, and_assoc]

def offences (collection : Collection) (fragment : Query.Fragment) : List Spread :=
  (placedSpreads fragment.selections).filter fun spread =>
    spread.fragment ∉ collection.names

theorem mem_offences_iff {spread : Spread} :
    spread ∈ collection.offences fragment ↔
      StandsAt spread.selection fragment.selections spread.path ∧
        spread.fragment ∉ collection.names := by
  rw [offences, List.mem_filter, mem_placedSpreads_iff, decide_eq_true_iff]

theorem ordered_offences (collection : Collection) (fragment : Query.Fragment) :
    (collection.offences fragment).Pairwise (·.path < ·.path) :=
  (ordered_placedSpreads fragment.selections).filter _

theorem undefinedSpreads_eq (collection : Collection) :
    collection.undefinedSpreads = collection.fragments.flatMap fun fragment =>
      (collection.offences fragment).map fun spread =>
        .undefined fragment.name spread.fragment ⟨none, spread.position⟩ := by
  refine List.flatMap_congr fun fragment _ => ?_
  rw [← map_placedSpreads, List.filterMap_map, offences]
  induction placedSpreads fragment.selections with
  | nil => rfl
  | cons spread rest ih =>
      have contains : collection.sources.contains spread.fragment = true ↔
          spread.fragment ∈ collection.names := OrderedMap.contains_iff
      by_cases defined : spread.fragment ∈ collection.names
      · rw [List.filter_cons_of_neg (by simpa using defined), ← ih]
        exact List.filterMap_cons_none (if_pos (contains.mpr defined))
      · rw [List.filter_cons_of_pos (by simpa using defined), List.map_cons, ← ih]
        exact List.filterMap_cons_some
          (if_neg fun filed => defined (contains.mp filed))

theorem undefinedSpreads_eq_nil_iff :
    collection.undefinedSpreads = [] ↔
      ∀ outer inner, SpreadsAmong collection.fragments outer inner →
        inner ∈ collection.names := by
  rw [undefinedSpreads_eq, List.flatMap_eq_nil_iff]
  simp only [List.map_eq_nil_iff]
  simp only [List.eq_nil_iff_forall_not_mem]
  constructor
  · rintro none outer inner ⟨fragment, member, _, position, path, stands⟩
    by_contra missing
    exact none fragment member ⟨path, inner, position⟩
      (mem_offences_iff.mpr ⟨stands, missing⟩)
  · intro complete fragment member spread offends
    obtain ⟨stands, missing⟩ := mem_offences_iff.mp offends
    exact missing (complete fragment.name _ ⟨fragment, member, rfl, _, _, stands⟩)

theorem cycles_eq_nil (fit : FitTogether collection.fragments) :
    collection.cycles = [] := by
  refine List.eq_nil_iff_forall_not_mem.mpr fun path member => ?_
  obtain ⟨filled, _, linked⟩ :=
    (isCircuit_of_mem_closedPaths (mem_closedPaths_of_mem_cycles member)).elementary
  have : Std.Irrefl (Relation.TransGen collection.Spreads) :=
    ⟨fun name leads => fit.acyclic name (Relation.TransGen.mono
      (fun _ _ spreads => (spreads_iff_among.mp spreads).1) _ _ leads)⟩
  exact filled (linked.imp fun _ _ => Relation.TransGen.single).eq_nil_of_irrefl

theorem faults_eq_nil_iff :
    collection.faults = [] ↔ FitTogether collection.fragments := by
  constructor
  · intro sound
    have complete :=
      undefinedSpreads_eq_nil_iff.mp (List.append_eq_nil_iff.mp sound).2
    refine ⟨fun outer inner spreads =>
      mem_names_iff_exists.mp (complete outer inner spreads), fun name leads => ?_⟩
    have acyclic := (⟨collection, sound⟩ : Table).acyclic_spreads
    exact acyclic name (Relation.TransGen.mono (fun outer inner spreads =>
      spreads_iff_among.mpr ⟨spreads, complete outer inner spreads⟩) _ _ leads)
  · intro fit
    have complete : collection.undefinedSpreads = [] :=
      undefinedSpreads_eq_nil_iff.mpr fun outer inner spreads =>
        mem_names_iff_exists.mpr (fit.complete outer inner spreads)
    rw [faults, cycles_eq_nil fit, complete]
    rfl

/-- Whatever is added and whatever is refused, a collection holds the first fragment of each
name, each later one is reported with the files and positions of both, and the collection makes
a table unless there are cycles or undefined spreads to report. -/
theorem table_of_additions (additions : List Addition) :
    let finish := (empty.applyAll additions).1
    let kept := firstBy Source.name (additions.flatMap Addition.sources)
    finish.sources.values = kept ∧
    (empty.applyAll additions).2 = (additions.mapIdx fun index addition =>
      rejections ((additions.take index).flatMap Addition.sources) addition.sources) ∧
    match finish.table with
    | .ok table =>
      table.collection.sources.values = kept ∧ FitTogether (kept.map (·.fragment))
    | .error faults =>
      ¬ FitTogether (kept.map (·.fragment)) ∧
        ∃ offences : Query.Fragment → List Spread,
          (∀ fragment, (offences fragment).Pairwise (·.path < ·.path) ∧
            ∀ spread, spread ∈ offences fragment ↔
              StandsAt (.spread spread.fragment spread.position) fragment.selections
                spread.path ∧
              ∀ source ∈ kept, source.fragment.name ≠ spread.fragment) ∧
          faults = finish.cycles.map .cycle ++ kept.flatMap fun source =>
            (offences source.fragment).map fun spread =>
              .undefined source.fragment.name spread.fragment
                ⟨none, spread.position⟩ := by
  obtain ⟨holds, reported⟩ := holds_empty.applyAll additions
  refine ⟨holds, reported, ?_⟩
  rw [Holds, List.nil_append] at holds
  rw [← holds, table]
  generalize (empty.applyAll additions).1 = finish
  by_cases sound : finish.faults = []
  · rw [dif_pos sound]
    exact ⟨rfl, faults_eq_nil_iff.mp sound⟩
  · rw [dif_neg sound]
    refine ⟨fun fit => sound (faults_eq_nil_iff.mpr fit), finish.offences,
      fun fragment => ⟨finish.ordered_offences fragment, fun spread => ?_⟩, ?_⟩
    · rw [mem_offences_iff, mem_names_iff_exists, fragments]
      simp [Spread.selection]
    · rw [faults, undefinedSpreads_eq, fragments, List.flatMap_map]

end Collection
end Fragment
end FieldLookahead
