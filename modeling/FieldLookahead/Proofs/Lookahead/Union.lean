import FieldLookahead.Proofs.Lookahead.Paths

namespace FieldLookahead

/-! Merging is the union of paths. It fails exactly if a path leads to a leaf on one side and to
sub-fields on the other, and then at the first such path. -/

namespace Assoc

variable {κ α β ε : Type}

/-- What is there after adding, from what was there before and what is added. -/
inductive Sums (Adds : α → α → α → Prop) : Option α → Option α → Option α → Prop
  | left (old : Option α) : Sums Adds old none old
  | right (value : Option α) : Sums Adds none value value
  | both {old value new : α} (adds : Adds old value new) :
      Sums Adds (some old) (some value) (some new)

theorem Sums.bind {Adds : α → α → α → Prop} {Adds' : β → β → β → Prop} {old value new : Option α}
    (sums : Sums Adds old value new) {part : α → Option β}
    (each : ∀ one two sum, value = some two → Adds one two sum →
      Sums Adds' (part one) (part two) (part sum)) :
    Sums Adds' (old.bind part) (value.bind part) (new.bind part) := by
  cases sums with
  | left old => exact .left _
  | right value => exact .right _
  | both adds => exact each _ _ _ rfl adds

theorem Sums.imp {Adds Weaker : α → α → α → Prop} {old value new : Option α}
    (sums : Sums Adds old value new)
    (weaken : ∀ one two sum, Adds one two sum → Weaker one two sum) :
    Sums Weaker old value new := by
  cases sums with
  | left old => exact .left _
  | right value => exact .right _
  | both adds => exact .both (weaken _ _ _ adds)

theorem Sums.map_eq_some_iff {Adds : α → α → α → Prop} {old value new : Option α}
    (sums : Sums Adds old value new) {view : α → β}
    (keeps : ∀ one two sum, Adds one two sum → view one = view sum ∧ view two = view sum)
    {seen : β} :
    new.map view = some seen ↔ old.map view = some seen ∨ value.map view = some seen := by
  cases sums with
  | left old => simp
  | right value => simp
  | both adds => simp [keeps _ _ _ adds]

theorem Sums.eq_of_none {Adds : α → α → α → Prop} {old new : Option α}
    (sums : Sums Adds old none new) : new = old := by
  cases sums <;> rfl

theorem findSome?_congr {f g : α → Option β} {items : List α}
    (same : ∀ item ∈ items, f item = g item) : items.findSome? f = items.findSome? g := by
  rw [← List.head?_filterMap, ← List.head?_filterMap, List.filterMap_congr same]

variable [DecidableEq κ] {add : κ → α → α → Attempt ε α}

theorem error?_each_join {more before : List (κ × α)} (distinct : (keys more).Nodup) :
    (Attempt.each (join add) more before).error? =
      more.findSome? fun entry =>
        (get? entry.1 before).bind fun old => (add entry.1 old entry.2).error? := by
  induction more generalizing before with
  | nil => rfl
  | cons entry rest ih =>
      obtain ⟨key, value⟩ := entry
      simp only [keys, List.map_cons, List.nodup_cons] at distinct
      have others : ∀ new, (rest.findSome? fun entry => (get? entry.1 (insert key new before)).bind
            fun old => (add entry.1 old entry.2).error?) =
          rest.findSome? fun entry => (get? entry.1 before).bind
            fun old => (add entry.1 old entry.2).error? := by
        intro new
        refine findSome?_congr fun other member => ?_
        have differs : key ≠ other.1 := fun same =>
          distinct.1 (same ▸ List.mem_map_of_mem (f := Prod.fst) member)
        rw [get?_insert_of_ne differs]
      rw [Attempt.each, List.findSome?_cons, join]
      cases get? key before with
      | none => exact (ih distinct.2).trans (others value)
      | some old =>
          cases added : add key old value with
          | done new =>
              simp only [added, Option.bind_some, Attempt.map, Attempt.andThen, Attempt.error?]
              exact (ih distinct.2).trans (others new)
          | stopped new error => simp [added, Attempt.map, Attempt.andThen, Attempt.error?]

theorem get?_each_join {more before after : List (κ × α)} (distinct : (keys more).Nodup)
    (run : Attempt.each (join add) more before = .done after) (key : κ) :
    Sums (fun old value new => add key old value = .done new) (get? key before) (get? key more)
      (get? key after) := by
  induction more generalizing before with
  | nil =>
      cases run
      exact .left _
  | cons entry rest ih =>
      obtain ⟨other, value⟩ := entry
      simp only [keys, List.map_cons, List.nodup_cons] at distinct
      obtain ⟨middle, joined, run⟩ := Attempt.each_cons_eq_done.mp run
      have later := ih distinct.2 run
      obtain ⟨new, rfl, origin⟩ := join_eq_done.mp joined
      by_cases same : other = key
      · subst same
        rw [get?_eq_none.mpr distinct.1, get?_insert_self] at later
        rw [later.eq_of_none, get?, if_pos rfl]
        rcases origin with ⟨missing, rfl⟩ | ⟨old, found, added⟩
        · exact missing ▸ .right _
        · exact found ▸ .both added
      · rw [get?_insert_of_ne same] at later
        rwa [get?, if_neg same]

theorem keys_each_join {more before after : List (κ × α)} (distinct : (keys more).Nodup)
    (run : Attempt.each (join add) more before = .done after) :
    keys after = keys before ++ (keys more).filter (· ∉ keys before) := by
  induction more generalizing before with
  | nil =>
      cases run
      exact (List.append_nil _).symm
  | cons entry rest ih =>
      obtain ⟨key, value⟩ := entry
      simp only [keys, List.map_cons, List.nodup_cons] at distinct
      obtain ⟨middle, joined, run⟩ := Attempt.each_cons_eq_done.mp run
      obtain ⟨new, rfl, _⟩ := join_eq_done.mp joined
      rw [ih distinct.2 run, keys_insert]
      change _ = keys before ++ (key :: keys rest).filter _
      by_cases present : key ∈ keys before
      · rw [if_pos present, List.filter_cons_of_neg (by simpa using present)]
      · rw [if_neg present, List.filter_cons_of_pos (by simpa using present),
          List.append_assoc, List.singleton_append]
        congr 2
        refine List.filter_congr fun other member => ?_
        have differs : other ≠ key := fun same => distinct.1 (same ▸ member)
        simp [differs]

theorem Sums.keys {Adds : List (κ × α) → List (κ × α) → List (κ × α) → Prop}
    {before more after : Option (List (κ × α))} (sums : Sums Adds before more after)
    (each : ∀ one two sum, more = some two → Adds one two sum →
      keys sum = keys one ++ (keys two).filter (· ∉ keys one)) :
    after.elim [] keys =
      before.elim [] keys ++ (more.elim [] keys).filter (· ∉ before.elim [] keys) := by
  cases sums with
  | left old => exact (List.append_nil _).symm
  | right value => simp
  | both adds => exact each _ _ _ rfl adds

end Assoc

def Request.Adds (old value new : Request) : Prop :=
  ∃ key, Request.absorb key old value = .done new

def Requests.Adds (old value new : Requests) : Prop :=
  Requests.absorb old value = .done new

def Lookahead.Adds (old value new : Lookahead) : Prop :=
  Lookahead.absorb old value = .done new

theorem Lookahead.Adds.get? {old value new : Lookahead} (adds : Adds old value new)
    (distinct : value.Distinct) (typeName : String) :
    Assoc.Sums Requests.Adds (Assoc.get? typeName old) (Assoc.get? typeName value)
      (Assoc.get? typeName new) := by
  rw [Adds, absorb_eq] at adds
  exact Assoc.get?_each_join distinct.nodup adds typeName

theorem Lookahead.Adds.keys {old value new : Lookahead} (adds : Adds old value new)
    (distinct : value.Distinct) :
    Assoc.keys new = Assoc.keys old ++ (Assoc.keys value).filter (· ∉ Assoc.keys old) := by
  rw [Adds, absorb_eq] at adds
  exact Assoc.keys_each_join distinct.nodup adds

theorem Requests.Adds.get? {old value new : Requests} (adds : Adds old value new)
    (distinct : value.Distinct) (key : String) :
    Assoc.Sums Request.Adds (Assoc.get? key old) (Assoc.get? key value)
      (Assoc.get? key new) := by
  rw [Adds, absorb_eq] at adds
  exact (Assoc.get?_each_join distinct.nodup adds key).imp fun _ _ _ added => ⟨key, added⟩

theorem Requests.Adds.keys {old value new : Requests} (adds : Adds old value new)
    (distinct : value.Distinct) :
    Assoc.keys new = Assoc.keys old ++ (Assoc.keys value).filter (· ∉ Assoc.keys old) := by
  rw [Adds, absorb_eq] at adds
  exact Assoc.keys_each_join distinct.nodup adds

namespace Request.Adds

variable {old value new : Request}

theorem shape_eq (adds : Adds old value new) :
    old.shape = new.shape ∧ value.shape = new.shape := by
  obtain ⟨key, added⟩ := adds
  cases value with
  | leaf =>
      obtain ⟨rfl, rfl⟩ := absorb_leaf_eq_done.mp added
      exact ⟨rfl, rfl⟩
  | nested more =>
      obtain ⟨below, sum, rfl, rfl, _⟩ := absorb_nested_eq_done.mp added
      exact ⟨rfl, rfl⟩

theorem nested? (adds : Adds old value new) :
    Assoc.Sums Lookahead.Adds old.nested? value.nested? new.nested? := by
  obtain ⟨key, added⟩ := adds
  cases value with
  | leaf =>
      obtain ⟨rfl, rfl⟩ := absorb_leaf_eq_done.mp added
      exact .left _
  | nested more =>
      obtain ⟨below, sum, rfl, rfl, absorbed⟩ := absorb_nested_eq_done.mp added
      exact .both absorbed

theorem requests (adds : Adds old value new) (distinct : value.Distinct) (typeName : String) :
    Assoc.Sums Requests.Adds (old.nested?.bind (Assoc.get? typeName))
      (value.nested?.bind (Assoc.get? typeName)) (new.nested?.bind (Assoc.get? typeName)) :=
  adds.nested?.bind fun _ _ _ found adds => adds.get? (distinct.nested? found) typeName

theorem at? (adds : Adds old value new) (distinct : value.Distinct) (path : Path) :
    Assoc.Sums Adds (old.at? path) (value.at? path) (new.at? path) := by
  induction path generalizing old value new with
  | nil => exact .both adds
  | cons step path ih =>
      obtain ⟨typeName, key⟩ := step
      have inner := (adds.requests distinct typeName).bind fun _ _ _ found adds =>
        adds.get? (distinct.requests found) key
      exact inner.bind fun _ _ _ found adds => ih adds (distinct.request found)

end Request.Adds

namespace Lookahead

variable {old value new : Lookahead}

theorem Adds.nested (adds : Adds old value new) :
    Request.Adds (.nested old) (.nested value) (.nested new) :=
  ⟨"", Request.absorb_nested_eq_done.mpr ⟨old, new, rfl, rfl, adds⟩⟩

theorem Adds.below? (adds : Adds old value new) (distinct : value.Distinct) (path : Path) :
    Assoc.Sums Adds (old.below? path) (value.below? path) (new.below? path) :=
  (adds.nested.at? distinct.nested path).bind fun _ _ _ _ adds => adds.nested?

/-- A lookahead is distinct, and has what either of two others has, the types and keys of the
first before the new ones of the second in every place. -/
structure Union (left right sum : Lookahead) : Prop where
  distinct : sum.Distinct
  paths : ∀ entry, entry ∈ sum.paths ↔ entry ∈ left.paths ∨ entry ∈ right.paths
  types : ∀ path typeName,
    typeName ∈ sum.typesAt path ↔ typeName ∈ left.typesAt path ∨ typeName ∈ right.typesAt path
  typeOrder : ∀ path, sum.typesAt path =
    left.typesAt path ++ (right.typesAt path).filter (· ∉ left.typesAt path)
  keyOrder : ∀ path typeName, sum.keysAt path typeName =
    left.keysAt path typeName ++
      (right.keysAt path typeName).filter (· ∉ left.keysAt path typeName)

theorem Adds.requestsAt? (adds : Adds old value new) (distinct : value.Distinct) (path : Path)
    (typeName : String) :
    Assoc.Sums Requests.Adds (old.requestsAt? path typeName) (value.requestsAt? path typeName)
      (new.requestsAt? path typeName) :=
  (adds.below? distinct path).bind fun _ _ _ found adds =>
    adds.get? (distinct.below? found) typeName

theorem Adds.mem_paths_iff (adds : Adds old value new) (distinct : old.Distinct)
    (valueDistinct : value.Distinct) (newDistinct : new.Distinct)
    (entry : Path × Request.Shape) :
    entry ∈ new.paths ↔ entry ∈ old.paths ∨ entry ∈ value.paths := by
  rw [Lookahead.mem_paths_iff newDistinct, Lookahead.mem_paths_iff distinct,
    Lookahead.mem_paths_iff valueDistinct, ← and_or_left]
  refine and_congr_right fun _ => ?_
  exact (adds.nested.at? valueDistinct.nested entry.1).map_eq_some_iff
    fun _ _ _ adds => adds.shape_eq

theorem Adds.union (adds : Adds old value new) (distinct : old.Distinct)
    (valueDistinct : value.Distinct) : Union old value new := by
  have newDistinct : new.Distinct :=
    (Lookahead.accumulates value).good "" distinct valueDistinct adds
  have typeOrder : ∀ path, new.typesAt path =
      old.typesAt path ++ (value.typesAt path).filter (· ∉ old.typesAt path) := by
    intro path
    refine (adds.below? valueDistinct path).keys fun _ _ _ found adds => ?_
    exact adds.keys (valueDistinct.below? found)
  refine ⟨newDistinct, adds.mem_paths_iff distinct valueDistinct newDistinct, ?_, typeOrder, ?_⟩
  · intro path typeName
    rw [typeOrder, List.mem_append, List.mem_filter, decide_eq_true_iff]
    tauto
  · intro path typeName
    refine (adds.requestsAt? valueDistinct path typeName).keys fun _ _ _ found adds => ?_
    exact adds.keys (valueDistinct.requestsAt? found)

end Lookahead

/-! The first clash. -/

namespace Request

def lastKey (key : String) : Path → String
  | [] => key
  | (_, next) :: path => lastKey next path

def differs (request : Request) (entry : Path × Shape) : Bool :=
  (request.at? entry.1).any fun found => found.shape ≠ entry.2

/-- The clash at the first of some paths below a key. -/
def firstClash? (key : String) (request : Request) (paths : List (Path × Shape)) : Option Clash :=
  (paths.find? request.differs).map fun entry => ⟨lastKey key entry.1⟩

theorem getLast?_eq_lastKey {path : Path} (long : path ≠ []) (key : String) :
    path.getLast?.map Prod.snd = some (lastKey key path) := by
  induction path generalizing key with
  | nil => exact absurd rfl long
  | cons step rest ih =>
      cases rest with
      | nil => rfl
      | cons next rest => exact ih (List.cons_ne_nil _ _) step.2

theorem firstClash?_flatMap {α : Type} (key : String) (request : Request) (items : List α)
    (paths : α → List (Path × Shape)) :
    firstClash? key request (items.flatMap paths) =
      items.findSome? fun item => firstClash? key request (paths item) := by
  rw [firstClash?, List.find?_flatMap, List.map_findSome?]
  rfl

theorem firstClash?_below (key : String) (below : Lookahead) (typeName : String)
    (requests : Requests) :
    firstClash? key (nested below) (Requests.paths typeName requests) =
      requests.findSome? fun entry =>
        ((Assoc.get? typeName below).bind (Assoc.get? entry.1)).bind fun request =>
          firstClash? entry.1 request entry.2.paths := by
  rw [Requests.paths_eq, firstClash?_flatMap]
  refine Assoc.findSome?_congr fun entry _ => ?_
  simp only [firstClash?, List.find?_map, Function.comp_def, Option.map_map, differs, at?, nested?,
    Option.bind_some]
  cases (Assoc.get? typeName below).bind (Assoc.get? entry.1) with
  | none => simp
  | some request => rfl

theorem error?_absorb {key : String} {old value : Request} (distinct : value.Distinct) :
    (absorb key old value).error? = firstClash? key old value.paths := by
  induction value using Request.induction generalizing key old with
  | leaf => cases old <;> rfl
  | nested more ih =>
      cases old with
      | leaf => rfl
      | nested below =>
          have moreDistinct := distinct.nested? rfl
          rw [Lookahead.distinct_eq] at moreDistinct
          have same : firstClash? key (nested below) (nested more).paths =
              firstClash? key (nested below) (Lookahead.paths more) := rfl
          rw [same, absorb, Attempt.error?_map, Lookahead.paths_eq, firstClash?_flatMap,
            Lookahead.absorb_eq, Assoc.error?_each_join moreDistinct.1]
          refine Assoc.findSome?_congr fun entry member => ?_
          have entryDistinct := moreDistinct.2 entry member
          rw [Requests.distinct_eq] at entryDistinct
          rw [firstClash?_below]
          cases Assoc.get? entry.1 below with
          | none => exact (List.findSome?_eq_none_iff.mpr fun _ _ => rfl).symm
          | some requests =>
              rw [Option.bind_some, Requests.absorb_eq, Assoc.error?_each_join entryDistinct.1]
              refine Assoc.findSome?_congr fun inner inside => ?_
              have innerDistinct := entryDistinct.2 inner inside
              simp only [ih entry member inner inside innerDistinct, Option.bind_some]

end Request

namespace Lookahead

variable {left right : Lookahead}

/-- A path leads to a leaf in one lookahead, and to sub-fields in the other. -/
def Clashes (left right : Lookahead) (path : Path) : Prop :=
  (path, .leaf) ∈ left.paths ∧ (path, .nested) ∈ right.paths ∨
    (path, .nested) ∈ left.paths ∧ (path, .leaf) ∈ right.paths

theorem differs_iff_clashes (distinct : left.Distinct) (alsoDistinct : right.Distinct)
    {entry : Path × Request.Shape} (member : entry ∈ right.paths) :
    (Request.nested left).differs entry = true ↔ Clashes left right entry.1 := by
  obtain ⟨path, shape⟩ := entry
  obtain ⟨long, there⟩ := (mem_paths_iff alsoDistinct).mp member
  simp only [Clashes, mem_paths_iff distinct, mem_paths_iff alsoDistinct, there, Request.differs]
  cases (Request.nested left).at? path with
  | none => simp
  | some request => cases request <;> cases shape <;> simp [long, Request.shape]

theorem error?_absorb (alsoDistinct : right.Distinct) (key : String) :
    (absorb left right).error? = (Request.nested left).firstClash? key right.paths := by
  have clashed : (Request.absorb key (.nested left) (.nested right)).error? =
      Request.firstClash? key (.nested left) right.paths :=
    Request.error?_absorb alsoDistinct.nested
  rwa [Request.absorb, Attempt.error?_map] at clashed

theorem exists_merge_iff (distinct : left.Distinct) (alsoDistinct : right.Distinct) :
    (∃ sum, merge left right = .ok sum) ↔ ∀ path, ¬ Clashes left right path := by
  simp only [merge, Attempt.finished_eq_ok, Attempt.exists_done_iff]
  rw [error?_absorb alsoDistinct "", Request.firstClash?, Option.map_eq_none_iff,
    List.find?_eq_none]
  constructor
  · intro none path clashes
    have listed : ∃ shape, (path, shape) ∈ right.paths := by
      rcases clashes with ⟨_, listed⟩ | ⟨_, listed⟩
      · exact ⟨_, listed⟩
      · exact ⟨_, listed⟩
    obtain ⟨shape, listed⟩ := listed
    exact none _ listed ((differs_iff_clashes distinct alsoDistinct listed).mpr clashes)
  · intro none entry listed differs
    exact none entry.1 ((differs_iff_clashes distinct alsoDistinct listed).mp differs)

theorem exists_first_of_merge (distinct : left.Distinct) (alsoDistinct : right.Distinct)
    {clash : Clash} (failed : merge left right = .error clash) :
    ∃ earlier path shape later, right.paths = earlier ++ (path, shape) :: later ∧
      Clashes left right path ∧ (∀ entry ∈ earlier, ¬ Clashes left right entry.1) ∧
      path.getLast?.map Prod.snd = some clash.key := by
  rw [merge, Attempt.finished_eq_error, error?_absorb alsoDistinct ""] at failed
  obtain ⟨⟨path, shape⟩, first, rfl⟩ := Option.map_eq_some_iff.mp failed
  obtain ⟨differs, earlier, later, split, before⟩ := List.find?_eq_some_iff_append.mp first
  have listed : (path, shape) ∈ right.paths := by simp [split]
  refine ⟨earlier, path, shape, later, split,
    (differs_iff_clashes distinct alsoDistinct listed).mp differs, ?_,
    Request.getLast?_eq_lastKey (ne_nil_of_mem_paths listed) ""⟩
  intro entry member clashes
  have listed : entry ∈ right.paths := split ▸ List.mem_append_left _ member
  have again := (differs_iff_clashes distinct alsoDistinct listed).mpr clashes
  exact absurd again (by simpa using before entry member)

/-- Merging is the union of paths. It succeeds exactly if no path clashes, and fails with the
last key of the first path of the second lookahead that does. -/
theorem merge_union (distinct : left.Distinct) (alsoDistinct : right.Distinct) :
    ((∃ sum, merge left right = .ok sum) ↔ ∀ path, ¬ Clashes left right path) ∧
    (∀ sum, merge left right = .ok sum → Union left right sum) ∧
    ∀ clash, merge left right = .error clash →
      ∃ earlier path shape later, right.paths = earlier ++ (path, shape) :: later ∧
        Clashes left right path ∧ (∀ entry ∈ earlier, ¬ Clashes left right entry.1) ∧
        path.getLast?.map Prod.snd = some clash.key := by
  refine ⟨exists_merge_iff distinct alsoDistinct, fun sum merged => ?_,
    fun clash => exists_first_of_merge distinct alsoDistinct⟩
  exact Adds.union (Attempt.finished_eq_ok.mp merged) distinct alsoDistinct

def pets : Lookahead :=
  [("Dog", [("id", .leaf), ("owner", .nested [("Person", [("name", .leaf)])])]), ("Cat", [])]

def morePets : Lookahead :=
  [("Cat", [("id", .leaf)]),
    ("Dog", [("owner", .nested [("Shelter", []), ("Person", [("age", .leaf), ("name", .leaf)])]),
      ("fits", .leaf)])]

def strayPets : Lookahead :=
  [("Dog", [("fits", .leaf), ("owner", .nested [("Person", [("name", .nested [])])]),
    ("id", .nested [])])]

theorem merge_union_of_pets :
    (pets.Distinct ∧ morePets.Distinct ∧ strayPets.Distinct) ∧
      (∃ sum, merge pets morePets = .ok sum ∧ Union pets morePets sum ∧
        sum.keysAt [("Dog", "owner")] "Person" = ["name", "age"]) ∧
      ∃ earlier path shape later, strayPets.paths = earlier ++ (path, shape) :: later ∧
        Clashes pets strayPets path ∧ (∀ entry ∈ earlier, ¬ Clashes pets strayPets entry.1) ∧
        path.getLast?.map Prod.snd = some "name" := by
  have distinct : pets.Distinct ∧ morePets.Distinct ∧ strayPets.Distinct := by
    simp [pets, morePets, strayPets, Lookahead.Distinct, Requests.Distinct, Request.Distinct,
      Assoc.keys]
  obtain ⟨known, more, stray⟩ := distinct
  have merged : ∃ sum, merge pets morePets = .ok sum ∧
      sum.keysAt [("Dog", "owner")] "Person" = ["name", "age"] := ⟨_, rfl, by decide +kernel⟩
  obtain ⟨sum, merged, keys⟩ := merged
  exact ⟨⟨known, more, stray⟩, ⟨sum, merged, (merge_union known more).2.1 sum merged, keys⟩,
    (merge_union known stray).2.2 ⟨"name"⟩ rfl⟩

end Lookahead
end FieldLookahead
