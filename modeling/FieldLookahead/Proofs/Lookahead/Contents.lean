import FieldLookahead.Proofs.Lookahead.Attribution

namespace FieldLookahead.Lookahead

open Fragment (Unfolded FieldNode Occurrence)

/-! What a lookahead made from nodes holds for each type: the keys of the fields attributed to
the type, and under each key the least request that contains what those fields contribute. -/

variable {schema : Schema} {outside : List String} {occurrence : Occurrence}

namespace Contributes

variable {entry other : String × Request}

theorem keyed (contributes : Contributes schema outside occurrence entry) :
    entry.1 = occurrence.node.label.key := by
  cases contributes <;> rfl

theorem good (contributes : Contributes schema outside occurrence entry) :
    Request.Distinct entry.2 := by
  cases contributes with
  | leaf _ => trivial
  | nested _ _ _ found => exact ofNodes_distinct found

theorem unique (contributes : Contributes schema outside occurrence entry)
    (again : Contributes schema outside occurrence other) : entry = other := by
  cases contributes with
  | leaf bare =>
      cases again with
      | leaf _ => rfl
      | nested selects _ _ _ => exact absurd bare selects
  | nested selects candidates typed found =>
      cases again with
      | leaf bare => exact absurd bare selects
      | nested _ candidates' typed' found' =>
          rw [candidates] at candidates'
          cases candidates'
          rw [typed] at typed'
          cases typed'
          rw [found] at found'
          cases found'
          rfl

end Contributes

/-- The requests of a type that started with none are the least that contain what each of its
fields contributes. -/
structure Collects (schema : Schema) (outside : List String) (occurrences : List Occurrence)
    (requests : Requests) : Prop where
  keys : ∀ key, key ∈ Assoc.keys requests ↔
    ∃ occurrence ∈ occurrences, occurrence.node.label.key = key
  takes : ∀ occurrence ∈ occurrences, ∃ entry, Contributes schema outside occurrence entry ∧
    Requests.ContainedIn [entry] requests
  least : ∀ large, (∀ occurrence ∈ occurrences, ∃ entry,
    Contributes schema outside occurrence entry ∧ Requests.ContainedIn [entry] large) →
      Requests.ContainedIn requests large

theorem mem_keys_of_forall₂ {occurrences : List Occurrence} {added : Requests}
    (contributes : List.Forall₂ (Contributes schema outside) occurrences added) (key : String) :
    key ∈ Assoc.keys added ↔ ∃ occurrence ∈ occurrences, occurrence.node.label.key = key := by
  constructor
  · intro member
    obtain ⟨entry, inside, rfl⟩ := List.mem_map.mp member
    obtain ⟨occurrence, reached, here⟩ := exists_of_forall₂_right contributes inside
    exact ⟨occurrence, reached, here.keyed.symm⟩
  · rintro ⟨occurrence, reached, rfl⟩
    obtain ⟨entry, inside, here⟩ := exists_of_forall₂_left contributes reached
    rw [← here.keyed]
    exact List.mem_map_of_mem inside

theorem collects_of_absorb {occurrences : List Occurrence} {added requests : Requests}
    (contributes : List.Forall₂ (Contributes schema outside) occurrences added)
    (absorbed : Requests.absorb [] added = .done requests) :
    Collects schema outside occurrences requests := by
  rw [Requests.absorb_eq] at absorbed
  have laws : ∀ entry ∈ added,
      Assoc.Accumulates Request.absorb Request.ContainedIn Request.Distinct entry.2 :=
    fun entry _ => Request.accumulates entry.2
  have good : ∀ entry ∈ added, Request.Distinct entry.2 := by
    intro entry member
    obtain ⟨_, _, here⟩ := exists_of_forall₂_right contributes member
    exact here.good
  refine ⟨?_, ?_, ?_⟩
  · intro key
    rw [Assoc.mem_keys_of_each_join absorbed, ← mem_keys_of_forall₂ contributes]
    simp [Assoc.keys]
  · intro occurrence reached
    obtain ⟨entry, member, here⟩ := exists_of_forall₂_left contributes reached
    have contained := Assoc.each_join_takes laws good absorbed
    rw [Requests.containedIn_eq]
    exact ⟨entry, here, contained.single member⟩
  · intro large contained
    have also : Assoc.ContainedIn Request.ContainedIn added large := by
      intro entry member
      obtain ⟨occurrence, reached, here⟩ := exists_of_forall₂_right contributes member
      obtain ⟨other, alsoHere, within⟩ := contained occurrence reached
      cases here.unique alsoHere
      rw [Requests.containedIn_eq] at within
      exact within entry List.mem_cons_self
    have nothing : Assoc.ContainedIn Request.ContainedIn [] large := by
      intro entry member
      cases member
    rw [Requests.containedIn_eq]
    exact Assoc.each_join_least laws nothing also absorbed

theorem Attributes.collects {occurrences : List Occurrence} {start finish : Lookahead}
    (attributes : Attributes schema outside occurrences start finish) {typeName : String}
    (fresh : Assoc.get? typeName start = some []) :
    ∃ requests, Assoc.get? typeName finish = some requests ∧
      Collects schema outside (attributedTo schema outside typeName occurrences) requests := by
  obtain ⟨added, requests, contributes, absorbed, found⟩ := attributes.entry typeName [] fresh
  exact ⟨requests, found, collects_of_absorb contributes absorbed⟩

theorem mem_attributedTo {typeName : String} {occurrences : List Occurrence} :
    occurrence ∈ attributedTo schema outside typeName occurrences ↔
      occurrence ∈ occurrences ∧
        typeName ∈ candidatesAfter schema outside occurrence.conditions := by
  rw [attributedTo, List.mem_filter, decide_eq_true_iff]

theorem get?_insertAll (names : List String) (typeName : String) (collected : Lookahead) :
    Assoc.get? typeName (names.foldl (fun types name => Assoc.insert name [] types) collected) =
      if typeName ∈ names then some [] else Assoc.get? typeName collected := by
  induction names generalizing collected with
  | nil => simp
  | cons name rest ih =>
      rw [List.foldl_cons, ih]
      by_cases later : typeName ∈ rest
      · simp [later]
      · by_cases same : name = typeName
        · simp [later, same]
        · simp [later, Ne.symm same, Assoc.get?_insert_of_ne same]

theorem get?_ofTypes (names : List String) (typeName : String) :
    Assoc.get? typeName (ofTypes names) = if typeName ∈ names then some [] else none := by
  rw [ofTypes, Assoc.ofList, List.foldl_map, get?_insertAll, Assoc.get?_nil]

theorem mem_keys_ofTypes {names : List String} {typeName : String} :
    typeName ∈ Assoc.keys (ofTypes names) ↔ typeName ∈ names := by
  rw [← Assoc.get?_isSome, get?_ofTypes]
  split <;> simp_all

theorem each_addNode_attributes {typeName : String} {nodes : List FieldNode}
    {start finish : Lookahead}
    (run : Attempt.each (addNode schema typeName outside) nodes start = .done finish) :
    Attributes schema outside (nodes.flatMap FieldNode.reached) start finish ∧
      ∀ node ∈ nodes, node.below ≠ [] := by
  induction nodes generalizing start with
  | nil =>
      cases run
      exact ⟨.nil schema outside _, by simp⟩
  | cons node rest ih =>
      obtain ⟨middle, added, run⟩ := Attempt.each_cons_eq_done.mp run
      obtain ⟨selects, added⟩ := addNode_eq_done.mp added
      obtain ⟨attributes, others⟩ := ih run
      refine ⟨?_, List.forall_mem_cons.mpr ⟨selects, others⟩⟩
      have first := addSelections_attributes schema outside node.below [] start middle (by simp)
        added
      exact first.append attributes

theorem isLeaf_of_possibleTypes {typeName : String} {types : List String}
    (possible : schema.possibleTypes typeName = .ok types) :
    schema.isLeaf typeName = .ok false := by
  obtain ⟨type, known, possible⟩ := bind_eq_ok.mp possible
  rw [Schema.isLeaf, Schema.kind, known]
  cases type with
  | object _ _ | interface _ _ | union _ _ => rfl
  | builtin _ | scalar _ | enum _ _ | input _ _ => cases possible

section OfNodes

variable {typeName : String} {nodes : List FieldNode} {types : List String}
  {lookahead : Lookahead}

theorem ofNodes_eq_ok_of_possibleTypes (possible : schema.possibleTypes typeName = .ok types) :
    ofNodes schema typeName nodes = .ok lookahead ↔
      Attempt.each (addNode schema typeName types) nodes (ofTypes types) =
        .done lookahead := by
  have composite := isLeaf_of_possibleTypes possible
  rw [ofNodes_eq_ok, composite, possible]
  simp

theorem ofNodes_selects (possible : schema.possibleTypes typeName = .ok types)
    (found : ofNodes schema typeName nodes = .ok lookahead) : ∀ node ∈ nodes, node.below ≠ [] :=
  (each_addNode_attributes ((ofNodes_eq_ok_of_possibleTypes possible).mp found)).2

theorem ofNodes_attributes (possible : schema.possibleTypes typeName = .ok types)
    (found : ofNodes schema typeName nodes = .ok lookahead) :
    Attributes schema types (nodes.flatMap FieldNode.reached) (ofTypes types) lookahead :=
  (each_addNode_attributes ((ofNodes_eq_ok_of_possibleTypes possible).mp found)).1

theorem ofNodes_collects (possible : schema.possibleTypes typeName = .ok types)
    (found : ofNodes schema typeName nodes = .ok lookahead) {candidate : String}
    (member : candidate ∈ types) :
    ∃ requests, Assoc.get? candidate lookahead = some requests ∧
      Collects schema types
        (attributedTo schema types candidate (nodes.flatMap FieldNode.reached)) requests :=
  (ofNodes_attributes possible found).collects
    ((get?_ofTypes types candidate).trans (if_pos member))

theorem ofNodes_get? {requests : Requests} {candidate : String}
    (possible : schema.possibleTypes typeName = .ok types)
    (found : ofNodes schema typeName nodes = .ok lookahead)
    (present : Assoc.get? candidate lookahead = some requests) :
    candidate ∈ types ∧ Collects schema types
      (attributedTo schema types candidate (nodes.flatMap FieldNode.reached)) requests := by
  have inside := (Assoc.get?_isSome candidate lookahead).mp (Option.isSome_of_eq_some present)
  rw [(ofNodes_attributes possible found).types, mem_keys_ofTypes] at inside
  obtain ⟨same, again, collects⟩ := ofNodes_collects possible found inside
  rw [present] at again
  cases again
  exact ⟨inside, collects⟩

theorem ofNodes_containedIn (possible : schema.possibleTypes typeName = .ok types)
    (found : ofNodes schema typeName nodes = .ok lookahead) (filled : nodes ≠ [])
    {large : Lookahead}
    (each : ∀ node ∈ nodes, ∃ alone, ofNodes schema typeName [node] = .ok alone ∧
      Lookahead.ContainedIn alone large) : Lookahead.ContainedIn lookahead large := by
  have below : ∀ node ∈ nodes, ∀ candidate ∈ types, ∃ requests top,
      Assoc.get? candidate large = some top ∧ Requests.ContainedIn requests top ∧
        Collects schema types (attributedTo schema types candidate node.reached) requests := by
    intro node member candidate candidateMember
    obtain ⟨alone, foundAlone, contained⟩ := each node member
    obtain ⟨requests, present, collects⟩ := ofNodes_collects possible foundAlone candidateMember
    rw [Lookahead.containedIn_eq] at contained
    obtain ⟨top, above, within⟩ := contained _ (Assoc.mem_of_get? present)
    rw [List.flatMap_singleton] at collects
    exact ⟨requests, top, above, within, collects⟩
  rw [Lookahead.containedIn_eq]
  intro entry member
  obtain ⟨candidate, collects⟩ :=
    ofNodes_get? possible found (Assoc.get?_of_mem (ofNodes_distinct found).nodup member)
  obtain ⟨first, inNodes⟩ := List.exists_mem_of_ne_nil nodes filled
  obtain ⟨_, top, above, _, _⟩ := below first inNodes entry.1 candidate
  refine ⟨top, above, collects.least top ?_⟩
  intro occurrence attributed
  obtain ⟨reached, isCandidate⟩ := mem_attributedTo.mp attributed
  obtain ⟨node, nodeMember, reached⟩ := List.mem_flatMap.mp reached
  obtain ⟨requests, same, alsoAbove, within, alone⟩ := below node nodeMember entry.1 candidate
  rw [above] at alsoAbove
  cases alsoAbove
  obtain ⟨added, contributes, taken⟩ :=
    alone.takes occurrence (mem_attributedTo.mpr ⟨reached, isCandidate⟩)
  exact ⟨added, contributes, taken.trans within⟩

end OfNodes

end FieldLookahead.Lookahead
