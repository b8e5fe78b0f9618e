import FieldLookahead.Proofs.Lookahead.Union
import Mathlib.Data.List.TakeWhile

namespace FieldLookahead

/-! What a merge that fails has done by then: it has added what comes before the first clash, in
depth-first order, and nothing else. -/

namespace Assoc

variable {κ α ε : Type} [DecidableEq κ]

/-- The entries before a key, and then a part of what is under the key. -/
def upTo (key : κ) (part : α → Option α) (entries : List (κ × α)) : List (κ × α) :=
  entries.takeWhile (·.1 ≠ key) ++ ((get? key entries).bind part).toList.map (key, ·)

theorem takeWhile_of_split {key : κ} {value : α} {earlier later : List (κ × α)}
    (fresh : key ∉ keys earlier) :
    (earlier ++ (key, value) :: later).takeWhile (·.1 ≠ key) = earlier := by
  have passes : ∀ entry ∈ earlier, decide (entry.1 ≠ key) = true := by
    intro entry member
    exact decide_eq_true fun same => fresh (same ▸ List.mem_map_of_mem (f := Prod.fst) member)
  rw [List.takeWhile_append_of_pos passes, List.takeWhile_cons_of_neg (by simp), List.append_nil]

theorem exists_split_of_get? {key : κ} {value : α} {entries : List (κ × α)}
    (found : get? key entries = some value) :
    ∃ later, entries = entries.takeWhile (·.1 ≠ key) ++ (key, value) :: later := by
  induction entries with
  | nil => cases found
  | cons entry rest ih =>
      obtain ⟨other, old⟩ := entry
      by_cases same : other = key
      · simp only [get?, same, if_true, Option.some.injEq] at found
        exact ⟨rest, by simp [same, found]⟩
      · simp only [get?, same, if_false] at found
        obtain ⟨later, split⟩ := ih found
        refine ⟨later, ?_⟩
        rw [List.takeWhile_cons_of_pos (by simpa using same), List.cons_append, ← split]

theorem exists_flatMap_upTo {β : Type} {view : κ × α → List β} {key : κ} {value : α}
    {entries : List (κ × α)} {part : α → Option α} {rest : List β}
    (found : get? key entries = some value)
    (split : view (key, value) = (part value).elim [] (fun kept => view (key, kept)) ++ rest) :
    ∃ later, entries.flatMap view = (upTo key part entries).flatMap view ++ rest ++ later := by
  obtain ⟨later, whole⟩ := exists_split_of_get? found
  refine ⟨later.flatMap view, ?_⟩
  rw [upTo, found, Option.bind_some, List.flatMap_append]
  conv_lhs => rw [whole, List.flatMap_append, List.flatMap_cons, split]
  cases part value <;> simp

theorem Distinct.upTo {Good : α → Prop} {entries : List (κ × α)}
    (distinct : Distinct Good entries) {key : κ} {part : α → Option α}
    (good : ∀ value kept, Assoc.get? key entries = some value → part value = some kept →
      Good kept) :
    Distinct Good (upTo key part entries) := by
  have before : (entries.takeWhile (·.1 ≠ key)).Sublist entries := List.takeWhile_sublist _
  rw [Assoc.upTo]
  cases found : (Assoc.get? key entries).bind part with
  | none =>
      rw [Option.toList_none, List.map_nil, List.append_nil]
      exact ⟨distinct.1.sublist (before.map _), fun entry member =>
        distinct.2 entry (before.subset member)⟩
  | some kept =>
      obtain ⟨value, there, taken⟩ := Option.bind_eq_some_iff.mp found
      have fresh : key ∉ keys (entries.takeWhile (·.1 ≠ key)) := by
        intro member
        obtain ⟨entry, inside, same⟩ := List.mem_map.mp member
        exact absurd same (by simpa using List.mem_takeWhile_imp inside)
      constructor
      · rw [keys, List.map_append, List.nodup_append']
        refine ⟨distinct.1.sublist (before.map _), by simp, fun other member same => ?_⟩
        cases List.mem_singleton.mp same
        exact fresh member
      · intro entry member
        rcases List.mem_append.mp member with member | member
        · exact distinct.2 entry (before.subset member)
        · cases List.mem_singleton.mp member
          exact good value kept there taken

variable {add : κ → α → α → Attempt ε α}

/-- Adding entries stopped at the entry of a key. -/
structure StopsAt (add : κ → α → α → Attempt ε α) (more before state : List (κ × α)) (error : ε)
    (key : κ) (old value stuck : α) : Prop where
  present : get? key before = some old
  listed : get? key more = some value
  left : get? key state = some stuck
  stopped : add key old value = .stopped stuck error
  added : ∀ part : α → Option α,
    (part value).elim (stuck = old) (fun kept => add key old kept = .done stuck) →
      Attempt.each (join add) (upTo key part more) before = .done state

theorem join_eq_stopped {entry : κ × α} {before state : List (κ × α)} {error : ε} :
    join add entry before = .stopped state error ↔
      ∃ old stuck, get? entry.1 before = some old ∧ add entry.1 old entry.2 = .stopped stuck error ∧
        state = insert entry.1 stuck before := by
  rw [join]
  cases get? entry.1 before with
  | none => simp
  | some old => simp [Attempt.map_eq_stopped, @eq_comm _ state]

theorem exists_stopsAt {more before state : List (κ × α)} {error : ε}
    (distinct : (keys more).Nodup)
    (run : Attempt.each (join add) more before = .stopped state error) :
    ∃ key old value stuck, StopsAt add more before state error key old value stuck := by
  obtain ⟨earlier, ⟨key, value⟩, later, middle, rfl, ran, joined⟩ :=
    Attempt.exists_stop_of_each run
  obtain ⟨old, stuck, found, stopped, rfl⟩ := join_eq_stopped.mp joined
  rw [keys, List.map_append, List.nodup_append'] at distinct
  have fresh : key ∉ keys earlier := fun member => distinct.2.2 member List.mem_cons_self
  have listed : get? key (earlier ++ (key, value) :: later) = some value :=
    get?_of_mem (by rwa [keys, List.map_append, List.nodup_append']) (by simp)
  have untouched : get? key middle = get? key before := by
    have sums := get?_each_join distinct.1 ran key
    rw [get?_eq_none.mpr fresh] at sums
    exact sums.eq_of_none
  refine ⟨key, old, value, stuck, untouched.symm.trans found, listed, get?_insert_self _ _ _,
    stopped, fun part added => ?_⟩
  rw [upTo, takeWhile_of_split fresh, listed, Option.bind_some, Attempt.each_append, ran]
  cases kept : part value with
  | none =>
      rw [kept] at added
      rw [show stuck = old from added, insert_of_get? found]
      rfl
  | some some =>
      rw [kept] at added
      exact (Attempt.each_singleton _ _ _).trans
        (join_eq_done.mpr ⟨stuck, rfl, .inr ⟨old, found, added⟩⟩)

end Assoc

/-- What comes before the end of a path, in depth-first order. -/
def Request.before : Path → Request → Option Request
  | [], _ => none
  | (typeName, key) :: path, request =>
    request.nested?.map fun below =>
      .nested (Assoc.upTo typeName (fun requests =>
        some (Assoc.upTo key (Request.before path) requests)) below)

def Lookahead.before (path : Path) (lookahead : Lookahead) : Lookahead :=
  (((Request.nested lookahead).before path).bind Request.nested?).getD []

namespace Request

theorem Distinct.before {request : Request} (distinct : request.Distinct) {path : Path}
    {part : Request} (kept : request.before path = some part) : part.Distinct := by
  induction path generalizing request part with
  | nil => cases kept
  | cons step path ih =>
      obtain ⟨below, nested, rfl⟩ := Option.map_eq_some_iff.mp kept
      have belowDistinct := distinct.nested? nested
      refine Lookahead.Distinct.nested ?_
      rw [Lookahead.distinct_eq] at belowDistinct ⊢
      refine belowDistinct.upTo fun requests _ found same => ?_
      have requestsDistinct := belowDistinct.get? found
      cases same
      rw [Requests.distinct_eq] at requestsDistinct ⊢
      exact requestsDistinct.upTo fun inner _ found => ih (requestsDistinct.get? found)

theorem exists_paths_split {request found : Request} {path : Path}
    (leads : request.at? path = some found) :
    ∃ later, request.paths =
      (request.before path).elim [] paths ++ (path, found.shape) :: later := by
  induction path generalizing request with
  | nil =>
      cases leads
      cases found with
      | leaf => exact ⟨[], rfl⟩
      | nested below => exact ⟨Lookahead.paths below, rfl⟩
  | cons step path ih =>
      obtain ⟨typeName, key⟩ := step
      rw [at?] at leads
      obtain ⟨inner, inside, leads⟩ := Option.bind_eq_some_iff.mp leads
      obtain ⟨requests, there, here⟩ := Option.bind_eq_some_iff.mp inside
      obtain ⟨below, nested, there⟩ := Option.bind_eq_some_iff.mp there
      obtain ⟨later, split⟩ := ih leads
      let lengthen (entry : Path × Shape) : Path × Shape := ((typeName, key) :: entry.1, entry.2)
      have keys : ∃ laterKeys, Requests.paths typeName requests =
          Requests.paths typeName (Assoc.upTo key (before path) requests) ++
            ((path, found.shape) :: later).map lengthen ++ laterKeys := by
        simp only [Requests.paths_eq]
        refine Assoc.exists_flatMap_upTo here ?_
        rw [split, List.map_append]
        cases inner.before path <;> rfl
      obtain ⟨laterKeys, keys⟩ := keys
      have types : ∃ laterTypes, Lookahead.paths below =
          Lookahead.paths
              (Assoc.upTo typeName (fun some => .some (Assoc.upTo key (before path) some)) below) ++
            (((path, found.shape) :: later).map lengthen ++ laterKeys) ++ laterTypes := by
        simp only [Lookahead.paths_eq]
        refine Assoc.exists_flatMap_upTo there ?_
        rw [keys, List.append_assoc]
        rfl
      obtain ⟨laterTypes, types⟩ := types
      cases request with
      | leaf => cases nested
      | nested =>
          cases nested
          refine ⟨later.map lengthen ++ laterKeys ++ laterTypes, ?_⟩
          rw [paths, types]
          simp [before, nested?, paths, lengthen]

structure StopsAt (key : String) (old value state : Request) (clash : Clash) (path : Path) :
    Prop where
  added : (value.before path).elim (state = old) fun part => absorb key old part = .done state
  untouched : state.at? path = old.at? path
  apart : ∃ was found, old.at? path = some was ∧ value.at? path = some found ∧
    was.shape ≠ found.shape
  named : clash.key = lastKey key path

theorem StopsAt.under {below more sum : Lookahead} {typeName inner : String}
    {present requests stuck : Requests} {was value left : Request} {clash : Clash} {path : Path}
    (types : Assoc.StopsAt (fun _ => Requests.absorb) more below sum clash typeName present requests
      stuck)
    (keys : Assoc.StopsAt absorb requests present stuck clash inner was value left)
    (stops : StopsAt inner was value left clash path) (key : String) :
    StopsAt key (nested below) (nested more) (nested sum) clash ((typeName, inner) :: path) := by
  have keysAdded : Requests.absorb present (Assoc.upTo inner (before path) requests) =
      .done stuck := by
    rw [Requests.absorb_eq]
    exact keys.added (before path) stops.added
  have typesAdded : Lookahead.absorb below (Assoc.upTo typeName (fun requests =>
      some (Assoc.upTo inner (before path) requests)) more) = .done sum := by
    rw [Lookahead.absorb_eq]
    exact types.added _ keysAdded
  refine ⟨absorb_nested_eq_done.mpr ⟨below, sum, rfl, rfl, typesAdded⟩, ?_, ?_, stops.named⟩
  · simpa [at?, nested?, types.present, types.left, keys.present, keys.left] using stops.untouched
  · simpa [at?, nested?, types.present, types.listed, keys.present, keys.listed] using stops.apart

theorem exists_stopsAt {key : String} {old value state : Request} {clash : Clash}
    (distinct : value.Distinct) (stopped : absorb key old value = .stopped state clash) :
    ∃ path, StopsAt key old value state clash path := by
  induction value using Request.induction generalizing key old state with
  | leaf =>
      cases old with
      | leaf => cases stopped
      | nested below =>
          cases stopped
          exact ⟨[], rfl, rfl, ⟨_, _, rfl, rfl, nofun⟩, rfl⟩
  | nested more ih =>
      cases old with
      | leaf =>
          cases stopped
          exact ⟨[], rfl, rfl, ⟨_, _, rfl, rfl, nofun⟩, rfl⟩
      | nested below =>
          rw [absorb, Attempt.map_eq_stopped] at stopped
          obtain ⟨sum, stopped, rfl⟩ := stopped
          have moreDistinct := distinct.nested? rfl
          rw [Lookahead.absorb_eq] at stopped
          obtain ⟨typeName, present, requests, stuck, types⟩ :=
            Assoc.exists_stopsAt moreDistinct.nodup stopped
          have requestsDistinct := Lookahead.Distinct.get? moreDistinct types.listed
          have stuckAt := types.stopped
          rw [Requests.absorb_eq] at stuckAt
          obtain ⟨inner, was, value, left, keys⟩ :=
            Assoc.exists_stopsAt (Requests.Distinct.nodup requestsDistinct) stuckAt
          obtain ⟨path, stops⟩ := ih _ (Assoc.mem_of_get? types.listed) _
            (Assoc.mem_of_get? keys.listed) (Requests.Distinct.get? requestsDistinct keys.listed)
            keys.stopped
          exact ⟨(typeName, inner) :: path, stops.under types keys key⟩

end Request

namespace Lookahead

variable {left right state : Lookahead} {clash : Clash} {path : Path}

theorem before_nested (step : String × String) (path : Path) (lookahead : Lookahead) :
    (Request.nested lookahead).before (step :: path) =
      some (.nested (lookahead.before (step :: path))) := rfl

theorem Distinct.before (distinct : right.Distinct) : (right.before path).Distinct := by
  cases path with
  | nil => exact trivial
  | cons step path => exact (distinct.nested.before (before_nested step path right)).nested? rfl

/-- A merge was interrupted at the first path that clashes. What comes before it is merged, and
what is there keeps its shape and its content. -/
structure InterruptedAt (left right state : Lookahead) (clash : Clash) (path : Path) : Prop where
  clashes : Clashes left right path
  named : path.getLast?.map Prod.snd = some clash.key
  split : ∃ shape later, right.paths = (right.before path).paths ++ (path, shape) :: later
  first : ∀ entry ∈ (right.before path).paths, ¬ Clashes left right entry.1
  merged : merge left (right.before path) = .ok state
  union : Union left (right.before path) state
  untouched : (Request.nested state).at? path = (Request.nested left).at? path

theorem clashes_of_apart (distinct : left.Distinct) (alsoDistinct : right.Distinct)
    {was found : Request} (there : (Request.nested left).at? path = some was)
    (here : (Request.nested right).at? path = some found) (apart : was.shape ≠ found.shape) :
    Clashes left right path := by
  have long : path ≠ [] := by
    rintro rfl
    cases there
    cases here
    exact apart rfl
  simp only [Clashes, mem_paths_iff distinct, mem_paths_iff alsoDistinct, there, here]
  cases was <;> cases found <;> simp_all [Request.shape]

theorem shape_eq_of_mem_paths (distinct : right.Distinct) {shape shape' : Request.Shape}
    (member : (path, shape) ∈ right.paths) (also : (path, shape') ∈ right.paths) :
    shape = shape' :=
  Option.some.inj (((mem_paths_iff distinct).mp member).2.symm.trans
    ((mem_paths_iff distinct).mp also).2)

theorem not_clashes_of_merge {part : Lookahead} (distinct : left.Distinct)
    (alsoDistinct : right.Distinct) (partDistinct : part.Distinct)
    (within : part.paths ⊆ right.paths) (merged : merge left part = .ok state) :
    ∀ entry ∈ part.paths, ¬ Clashes left right entry.1 := by
  rintro ⟨path, shape⟩ member clashes
  refine (exists_merge_iff distinct partDistinct).mp ⟨state, merged⟩ path ?_
  rcases clashes with ⟨there, here⟩ | ⟨there, here⟩
  · cases shape_eq_of_mem_paths alsoDistinct (within member) here
    exact .inl ⟨there, member⟩
  · cases shape_eq_of_mem_paths alsoDistinct (within member) here
    exact .inr ⟨there, member⟩

/-- Adding that fails stops at the first path that clashes, and leaves the merge of what was there
with what comes before that path. -/
theorem absorb_interrupted (distinct : left.Distinct) (alsoDistinct : right.Distinct)
    (stopped : absorb left right = .stopped state clash) :
    ∃ path, InterruptedAt left right state clash path := by
  have stuck : Request.absorb "" (.nested left) (.nested right) =
      .stopped (.nested state) clash := by
    rw [Request.absorb, stopped]
    rfl
  obtain ⟨path, added, untouched, ⟨was, found, there, here, apart⟩, named⟩ :=
    Request.exists_stopsAt alsoDistinct.nested stuck
  have clashes := clashes_of_apart distinct alsoDistinct there here apart
  obtain ⟨later, split⟩ := Request.exists_paths_split here
  cases path with
  | nil =>
      cases there
      cases here
      exact absurd rfl apart
  | cons step path =>
      rw [before_nested, Option.elim_some] at added split
      obtain ⟨_, sum, same, also, adds⟩ := Request.absorb_nested_eq_done.mp added
      cases same
      cases also
      have split := List.tail_eq_of_cons_eq split
      have merged : merge left (right.before (step :: path)) = .ok state :=
        Attempt.finished_eq_ok.mpr adds
      have within : (right.before (step :: path)).paths ⊆ right.paths :=
        split ▸ List.subset_append_left _ _
      refine ⟨step :: path, clashes, ?_, ⟨found.shape, later, split⟩, ?_, merged,
        Adds.union adds distinct alsoDistinct.before, untouched⟩
      · rw [named]
        exact Request.getLast?_eq_lastKey (List.cons_ne_nil _ _) ""
      · exact not_clashes_of_merge distinct alsoDistinct alsoDistinct.before within merged

def lostPets : Lookahead :=
  [("Parrot", [("id", .leaf)]),
    ("Dog", [("fits", .leaf),
      ("owner", .nested [("Shelter", []), ("Person", [("age", .leaf), ("name", .nested [])])]),
      ("breed", .leaf)]),
    ("Cat", [("id", .leaf)])]

theorem absorb_interrupted_of_pets :
    (pets.Distinct ∧ lostPets.Distinct) ∧
      ∃ state path, absorb pets lostPets = .stopped state ⟨"name"⟩ ∧
        InterruptedAt pets lostPets state ⟨"name"⟩ path ∧
        Assoc.keys state = ["Dog", "Cat", "Parrot"] ∧
        state.keysAt [] "Dog" = ["id", "owner", "fits"] ∧
        state.typesAt [("Dog", "owner")] = ["Person", "Shelter"] ∧
        state.keysAt [("Dog", "owner")] "Person" = ["name", "age"] ∧
        state.keysAt [] "Cat" = [] := by
  have distinct : pets.Distinct ∧ lostPets.Distinct := by
    simp [pets, lostPets, Lookahead.Distinct, Requests.Distinct, Request.Distinct, Assoc.keys]
  have stopped : ∃ state, absorb pets lostPets = .stopped state ⟨"name"⟩ ∧
      Assoc.keys state = ["Dog", "Cat", "Parrot"] ∧
      state.keysAt [] "Dog" = ["id", "owner", "fits"] ∧
      state.typesAt [("Dog", "owner")] = ["Person", "Shelter"] ∧
      state.keysAt [("Dog", "owner")] "Person" = ["name", "age"] ∧
      state.keysAt [] "Cat" = [] :=
    ⟨_, rfl, by decide, by decide, by decide, by decide, by decide⟩
  obtain ⟨state, stopped, contents⟩ := stopped
  obtain ⟨path, interrupted⟩ := absorb_interrupted distinct.1 distinct.2 stopped
  exact ⟨distinct, state, path, stopped, interrupted, contents⟩

end Lookahead
end FieldLookahead
