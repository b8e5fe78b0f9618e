import FieldLookahead.Proofs.Fragment.Rotation
import FieldLookahead.Proofs.Fragment.Unfolding
import FieldLookahead.Proofs.Query.Places
import Mathlib.Data.List.Cycle
import Mathlib.Data.List.Forall2

namespace FieldLookahead.Fragment

open Query

/-! The graph of fragments that spread each other, and the search that lists its cycles. -/

theorem closed_append {before after : List String} {name : String} (fresh : name ∉ before) :
    closed (before ++ name :: after) name = name :: (before.reverse ++ [name]) := by
  have kept : ∀ other ∈ before, (other ≠ name : Bool) = true :=
    fun other member => decide_eq_true fun same => fresh (same ▸ member)
  rw [closed, List.takeWhile_append_of_pos kept]
  simp

namespace Collection

variable {collection : Collection} {outer inner name first : String} {others : List String}

def Spreads (collection : Collection) (outer inner : String) : Prop :=
  (∃ fragment, collection.get? outer = some fragment ∧
    ∃ position path, StandsAt (.spread inner position) fragment.selections path) ∧
  inner ∈ collection.names

theorem spreads_iff :
    collection.Spreads outer inner ↔
      inner ∈ collection.spreadsOf outer ∧ inner ∈ collection.names := by
  refine and_congr_left fun _ => ?_
  cases found : collection.get? outer with
  | none => simp [spreadsOf_missing found]
  | some fragment => simp [spreadsOf_found found, mem_spreadsOfAll_iff]

theorem mem_names_of_mem_spreadsOf (member : inner ∈ collection.spreadsOf outer) :
    outer ∈ collection.names := by
  cases found : collection.get? outer with
  | none =>
      rw [spreadsOf_missing found] at member
      cases member
  | some fragment => exact mem_names_iff.mpr ⟨fragment, found⟩

mutual
/-- The search for cycles below a name, with the names above it. Nothing but the names above
ends the descent, so what is found is all that there is to find. -/
inductive Searches (collection : Collection) :
    List String → String → List (List String) → Prop
  | closes {above : List String} {name : String} (member : name ∈ above) :
      Searches collection above name [closed above name]
  | ends {above : List String} {name : String} (fresh : name ∉ above)
      (missing : collection.get? name = none) : Searches collection above name []
  | enters {above : List String} {name : String} {fragment : Query.Fragment}
      {found : List (List String)} (fresh : name ∉ above)
      (defined : collection.get? name = some fragment)
      (inside : SearchesAll collection (name :: above) fragment.selections found) :
      Searches collection above name found

inductive SearchesAll (collection : Collection) :
    List String → List Selection → List (List String) → Prop
  | nil {above : List String} : SearchesAll collection above [] []
  | field {above : List String} {label : FieldLabel} {below rest : List Selection}
      {found others : List (List String)} (inside : SearchesAll collection above below found)
      (there : SearchesAll collection above rest others) :
      SearchesAll collection above (.field label below :: rest) (found ++ others)
  | inline {above : List String} {condition? : Option String} {position : Syntax.Position}
      {below rest : List Selection} {found others : List (List String)}
      (inside : SearchesAll collection above below found)
      (there : SearchesAll collection above rest others) :
      SearchesAll collection above (.inline condition? position below :: rest) (found ++ others)
  | spread {above : List String} {name : String} {position : Syntax.Position}
      {rest : List Selection} {found others : List (List String)}
      (here : Searches collection above name found)
      (there : SearchesAll collection above rest others) :
      SearchesAll collection above (.spread name position :: rest) (found ++ others)
end

theorem searchesAll_spreads {above : List String} {found : String → List (List String)} :
    ∀ selections : List Selection,
      (∀ spread ∈ spreadsOfAll selections, collection.Searches above spread.1 (found spread.1)) →
      collection.SearchesAll above selections
        ((spreadsOfAll selections).flatMap fun spread => found spread.1)
  | [], _ => .nil
  | .field label below :: rest, each => by
      rw [spreadsOfAll, Selection.spreads] at each ⊢
      obtain ⟨inside, there⟩ := List.forall_mem_append.mp each
      rw [List.flatMap_append]
      exact .field (searchesAll_spreads below inside) (searchesAll_spreads rest there)
  | .inline condition? position below :: rest, each => by
      rw [spreadsOfAll, Selection.spreads] at each ⊢
      obtain ⟨inside, there⟩ := List.forall_mem_append.mp each
      rw [List.flatMap_append]
      exact .inline (searchesAll_spreads below inside) (searchesAll_spreads rest there)
  | .spread name position :: rest, each => by
      rw [spreadsOfAll, Selection.spreads] at each ⊢
      obtain ⟨here, there⟩ := List.forall_mem_append.mp each
      rw [List.flatMap_append, List.flatMap_singleton]
      exact .spread (here _ List.mem_cons_self) (searchesAll_spreads rest there)

/-- The names above are different fragments, and the limit leaves room below them for all the
others. -/
structure Room (collection : Collection) (depth : Nat) (above : List String) : Prop where
  distinct : above.Nodup
  defined : above ⊆ collection.names
  enough : collection.names.length < depth + above.length

namespace Room

variable {depth : Nat} {above : List String}

theorem start (collection : Collection) :
    collection.Room (collection.names.length + 1) (Seen.empty : Seen String).list :=
  ⟨List.nodup_nil, List.nil_subset _, Nat.lt_succ_self _⟩

theorem pos (room : collection.Room depth above) : depth ≠ 0 := by
  have few := room.distinct.length_le_of_subset room.defined
  have enough := room.enough
  omega

theorem push (room : collection.Room (depth + 1) above) (fresh : name ∉ above)
    (defined : name ∈ collection.names) : collection.Room depth (name :: above) where
  distinct := List.nodup_cons.mpr ⟨fresh, room.distinct⟩
  defined := List.cons_subset.mpr ⟨defined, room.defined⟩
  enough := by
    have enough := room.enough
    rw [List.length_cons]
    omega

end Room

theorem searches_cyclesBelow {depth : Nat} {above : Seen String}
    (room : collection.Room depth above.list) (name : String) :
    collection.Searches above.list name
      (cyclesBelow collection.spreadsOf depth above name) := by
  induction depth generalizing above name with
  | zero => exact absurd rfl room.pos
  | succ depth ih =>
      rw [cyclesBelow]
      split
      · next closes => exact .closes (Seen.contains_iff.mp closes)
      · next fresh =>
          rw [Seen.contains_iff] at fresh
          cases found : collection.get? name with
          | none =>
              rw [spreadsOf_missing found]
              exact .ends fresh found
          | some fragment =>
              have room' : collection.Room depth (above.push name).list :=
                room.push fresh (mem_names_iff.mpr ⟨fragment, found⟩)
              rw [spreadsOf_found found, List.flatMap_map]
              exact .enters fresh found
                (searchesAll_spreads fragment.selections fun spread _ => ih room' spread.1)

/-- A path that leads from a fragment through others, all different, back to it. -/
def IsCircuit (collection : Collection) (path : List String) : Prop :=
  ∃ first others, path = first :: (others ++ [first]) ∧ (first :: others).Nodup ∧
    path.IsChain collection.Spreads

theorem isCircuit_closed {above : List String} (distinct : above.Nodup)
    (defined : above ⊆ collection.names)
    (linked : (name :: above).IsChain fun inner outer => inner ∈ collection.spreadsOf outer)
    (member : name ∈ above) : collection.IsCircuit (closed above name) := by
  obtain ⟨before, after, rfl, fresh⟩ := List.eq_append_cons_of_mem member
  have known := List.append_subset.mp defined
  -- The names above come latest first, so the links are followed backwards.
  have inside : ∀ other ∈ name :: (before ++ [name]), other ∈ collection.names := by
    simp only [List.mem_cons, List.mem_append, List.not_mem_nil, or_false]
    rintro other (rfl | earlier | rfl)
    · exact defined member
    · exact known.1 earlier
    · exact defined member
  have forward : (name :: (before ++ [name])).IsChain
      fun inner outer => collection.Spreads outer inner :=
    (List.isChain_cons_split.mp linked).1.imp_of_mem_imp fun inner outer innerMember _ link =>
      spreads_iff.mpr ⟨link, inside inner innerMember⟩
  rw [closed_append fresh]
  refine ⟨name, before.reverse, rfl, ?_, ?_⟩
  · rw [List.nodup_cons, List.mem_reverse, List.nodup_reverse]
    exact ⟨fresh, (List.nodup_append.mp distinct).1⟩
  · have backward := List.isChain_reverse.mpr forward
    simpa using backward

theorem isCircuit_of_mem_cyclesBelow {depth : Nat} {above : Seen String} {path : List String}
    (distinct : above.list.Nodup) (defined : above.list ⊆ collection.names)
    (linked : (name :: above.list).IsChain fun inner outer => inner ∈ collection.spreadsOf outer)
    (member : path ∈ cyclesBelow collection.spreadsOf depth above name) :
    collection.IsCircuit path := by
  induction depth generalizing above name with
  | zero => cases member
  | succ depth ih =>
      rw [cyclesBelow] at member
      split at member
      · next closes =>
          rw [List.mem_singleton.mp member]
          exact isCircuit_closed distinct defined linked (Seen.contains_iff.mp closes)
      · next fresh =>
          rw [Seen.contains_iff] at fresh
          obtain ⟨inner, spread, member⟩ := List.mem_flatMap.mp member
          refine ih ?_ ?_ ?_ member
          · exact List.nodup_cons.mpr ⟨fresh, distinct⟩
          · exact List.cons_subset.mpr ⟨mem_names_of_mem_spreadsOf spread, defined⟩
          · exact List.isChain_cons_cons.mpr ⟨spread, linked⟩

theorem mem_cyclesBelow_succ {depth : Nat} {above : Seen String} {path : List String}
    (fresh : name ∉ above.list) (spread : inner ∈ collection.spreadsOf name)
    (member : path ∈ cyclesBelow collection.spreadsOf depth (above.push name) inner) :
    path ∈ cyclesBelow collection.spreadsOf (depth + 1) above name := by
  rw [cyclesBelow, if_neg fun known => fresh (Seen.contains_iff.mp known)]
  exact List.mem_flatMap.mpr ⟨inner, spread, member⟩

theorem closed_mem_cyclesBelow {depth : Nat} {above : Seen String} {goal : String}
    (room : collection.Room depth above.list) (distinct : (name :: others).Nodup)
    (apart : ∀ other ∈ name :: others, other ∉ above.list)
    (linked : (name :: (others ++ [goal])).IsChain collection.Spreads)
    (closes : goal ∈ name :: above.list) :
    closed (others.reverse ++ name :: above.list) goal ∈
      cyclesBelow collection.spreadsOf depth above name := by
  induction others generalizing depth above name with
  | nil =>
      obtain ⟨depth, rfl⟩ := Nat.exists_eq_succ_of_ne_zero room.pos
      have fresh := apart name List.mem_cons_self
      have spread := (spreads_iff.mp (List.isChain_pair.mp linked)).1
      have room' := room.push fresh (mem_names_of_mem_spreadsOf spread)
      obtain ⟨depth, rfl⟩ := Nat.exists_eq_succ_of_ne_zero room'.pos
      refine mem_cyclesBelow_succ fresh spread ?_
      rw [cyclesBelow, if_pos (Seen.contains_iff.mpr closes)]
      exact List.mem_singleton_self _
  | cons next rest ih =>
      obtain ⟨depth, rfl⟩ := Nat.exists_eq_succ_of_ne_zero room.pos
      have fresh := apart name List.mem_cons_self
      obtain ⟨link, linked⟩ := List.isChain_cons_cons.mp linked
      have spread := (spreads_iff.mp link).1
      obtain ⟨new, distinct⟩ := List.nodup_cons.mp distinct
      have room' : collection.Room depth (above.push name).list :=
        room.push fresh (mem_names_of_mem_spreadsOf spread)
      have found := ih room' distinct
        (fun other member known => (List.mem_cons.mp known).elim (fun same => new (same ▸ member))
          (apart other (List.mem_cons_of_mem _ member)))
        linked (List.mem_cons_of_mem _ closes)
      refine mem_cyclesBelow_succ fresh spread ?_
      rwa [List.reverse_cons, List.append_assoc]

theorem mem_names_of_isChain {path : List String}
    (linked : (first :: path).IsChain collection.Spreads) : path ⊆ collection.names := by
  induction path generalizing first with
  | nil => exact List.nil_subset _
  | cons next rest ih =>
      obtain ⟨link, linked⟩ := List.isChain_cons_cons.mp linked
      exact List.cons_subset.mpr ⟨link.2, ih linked⟩

def closedPaths (collection : Collection) : List (List String) :=
  collection.names.flatMap
    (cyclesBelow collection.spreadsOf (collection.names.length + 1) .empty)

theorem isCircuit_of_mem_closedPaths {path : List String}
    (member : path ∈ collection.closedPaths) : collection.IsCircuit path := by
  obtain ⟨name, _, found⟩ := List.mem_flatMap.mp member
  exact isCircuit_of_mem_cyclesBelow List.nodup_nil (List.nil_subset _)
    (List.isChain_singleton _) found

theorem mem_closedPaths (distinct : (first :: others).Nodup)
    (linked : (first :: (others ++ [first])).IsChain collection.Spreads) :
    first :: (others ++ [first]) ∈ collection.closedPaths := by
  have defined := mem_names_of_isChain linked (List.mem_append_right _ List.mem_cons_self)
  refine List.mem_flatMap.mpr ⟨first, defined, ?_⟩
  have found := closed_mem_cyclesBelow (Room.start collection) distinct
    (fun _ _ => List.not_mem_nil) linked List.mem_cons_self
  have fresh : first ∉ others.reverse :=
    fun member => (List.nodup_cons.mp distinct).1 (List.mem_reverse.mp member)
  rwa [Seen.list_empty, closed_append fresh, List.reverse_reverse] at found

theorem cycles_eq_firstBy (collection : Collection) :
    collection.cycles =
      firstBy (fun cycle => rotation cycle.dropLast) collection.closedPaths := by
  rw [cycles_eq, distinctCycles_empty, closedPaths]

theorem mem_closedPaths_of_mem_cycles {path : List String} (member : path ∈ collection.cycles) :
    path ∈ collection.closedPaths := by
  rw [cycles_eq_firstBy] at member
  exact (firstBy_sublist _ _).subset member

theorem forall₂_searches (collection : Collection) :
    ∃ found, List.Forall₂ (collection.Searches []) collection.names found ∧
      found.flatten = collection.closedPaths := by
  refine ⟨collection.names.map (cyclesBelow collection.spreadsOf (collection.names.length + 1)
    .empty), List.forall₂_map_right_iff.mpr (List.forall₂_same.mpr fun name _ => ?_), rfl⟩
  exact searches_cyclesBelow (Room.start collection) name

theorem IsCircuit.elementary {path : List String} (circuit : collection.IsCircuit path) :
    (path.dropLast : Cycle String) ≠ .nil ∧ (path.dropLast : Cycle String).Nodup ∧
      (path.dropLast : Cycle String).Chain collection.Spreads := by
  obtain ⟨first, others, rfl, distinct, linked⟩ := circuit
  rw [← List.cons_append, List.dropLast_concat]
  exact ⟨fun none => List.cons_ne_nil first others ((Cycle.coe_eq_nil _).mp none),
    Cycle.nodup_coe_iff.mpr distinct, (Cycle.chain_coe_cons _ _ _).mpr linked⟩

theorem nodup_cycles (collection : Collection) :
    (collection.cycles.map fun path => (path.dropLast : Cycle String)).Nodup := by
  have distinct := nodup_map_firstBy (fun cycle => rotation cycle.dropLast)
    collection.closedPaths
  rw [← cycles_eq_firstBy] at distinct
  refine List.pairwise_map.mpr ((List.pairwise_map.mp distinct).imp_of_mem ?_)
  intro left right leftMember _ differ same
  have circuit := isCircuit_of_mem_closedPaths (mem_closedPaths_of_mem_cycles leftMember)
  exact differ ((rotation_eq_iff (Cycle.nodup_coe_iff.mp circuit.elementary.2.1)).mpr
    (Cycle.coe_eq_coe.mp same))

theorem exists_mem_cycles (distinct : (first :: others).Nodup)
    (linked : (first :: (others ++ [first])).IsChain collection.Spreads) :
    ∃ path ∈ collection.cycles,
      (path.dropLast : Cycle String) = (first :: others : List String) := by
  have label := List.mem_map_of_mem (f := fun cycle : List String => rotation cycle.dropLast)
    (mem_closedPaths distinct linked)
  rw [← mem_map_firstBy, ← cycles_eq_firstBy] at label
  obtain ⟨path, member, same⟩ := List.mem_map.mp label
  refine ⟨path, member, Cycle.coe_eq_coe.mpr ?_⟩
  have circuit := isCircuit_of_mem_closedPaths (mem_closedPaths_of_mem_cycles member)
  rw [← List.cons_append, List.dropLast_concat] at same
  exact (rotation_eq_iff (Cycle.nodup_coe_iff.mp circuit.elementary.2.1)).mp same

/-- The search comes to an end, and lists every elementary cycle of the graph once, whatever
fragment it is seen from. -/
theorem cycles_exact (collection : Collection) :
    (∃ found, List.Forall₂ (collection.Searches []) collection.names found ∧
      collection.cycles = distinctCycles .empty found.flatten) ∧
    (∀ path ∈ collection.cycles, collection.IsCircuit path) ∧
    (collection.cycles.map fun path => (path.dropLast : Cycle String)).Nodup ∧
    ∀ cycle : Cycle String,
      (cycle ∈ collection.cycles.map fun path => (path.dropLast : Cycle String)) ↔
        cycle ≠ .nil ∧ cycle.Nodup ∧ cycle.Chain collection.Spreads := by
  have circuits : ∀ path ∈ collection.cycles, collection.IsCircuit path :=
    fun path member => isCircuit_of_mem_closedPaths (mem_closedPaths_of_mem_cycles member)
  refine ⟨?_, circuits, collection.nodup_cycles, fun cycle => ⟨?_, ?_⟩⟩
  · obtain ⟨found, searched, flat⟩ := collection.forall₂_searches
    exact ⟨found, searched, by rw [flat, cycles_eq, closedPaths]⟩
  · intro listed
    obtain ⟨path, member, rfl⟩ := List.mem_map.mp listed
    exact (circuits path member).elementary
  · rintro ⟨filled, distinct, linked⟩
    induction cycle using Quotient.inductionOn' with
    | h names =>
        cases names with
        | nil => exact absurd rfl filled
        | cons first others =>
            obtain ⟨path, member, same⟩ := exists_mem_cycles
              (Cycle.nodup_coe_iff.mp distinct) ((Cycle.chain_coe_cons _ _ _).mp linked)
            exact List.mem_map.mpr ⟨path, member, same⟩

end Collection

def Source.spreading (name : String) (others : List String) : Source where
  fragment := ⟨name, "Pet", ⟨1, 1⟩, [.inline none ⟨1, 1⟩ (others.map (.spread · ⟨1, 1⟩))]⟩
  file? := none

example :
    (Collection.empty.addAll [.spreading "B" ["A", "C"], .spreading "A" ["B", "B"],
      .spreading "C" ["A", "D"]]).1.cycles = [["B", "A", "B"], ["B", "C", "A", "B"]] := by
  decide +kernel
end FieldLookahead.Fragment
