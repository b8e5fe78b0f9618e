import FieldLookahead.Proofs.Lookahead.Containment

namespace FieldLookahead

/-! A lookahead as a set of paths. A path goes through types and response keys down to a request,
and is labelled with the shape of that request. -/

/-- The types and response keys that lead to a request. -/
abbrev Path := List (String × String)

namespace Request

inductive Shape where
  | leaf
  | nested
  deriving DecidableEq, Repr

def shape : Request → Shape
  | leaf => .leaf
  | nested _ => .nested

def at? (request : Request) : Path → Option Request
  | [] => some request
  | (typeName, key) :: path =>
    ((request.nested?.bind (Assoc.get? typeName)).bind (Assoc.get? key)).bind (at? · path)

end Request

mutual
/-- The paths to a request and to everything below it, each before those that go on from it. -/
def Request.paths : Request → List (Path × Request.Shape)
  | .leaf => [([], .leaf)]
  | .nested below => ([], .nested) :: Lookahead.paths below
  termination_by structural request => request

def Requests.paths (typeName : String) : Requests → List (Path × Request.Shape)
  | [] => []
  | (key, request) :: rest =>
      (Request.paths request).map (fun (path, shape) => ((typeName, key) :: path, shape)) ++
        Requests.paths typeName rest
  termination_by structural requests => requests

def Lookahead.paths : Lookahead → List (Path × Request.Shape)
  | [] => []
  | (typeName, requests) :: rest => Requests.paths typeName requests ++ Lookahead.paths rest
  termination_by structural lookahead => lookahead
end

namespace Lookahead

/-- The lookahead below a path, if it leads to one. -/
def below? (lookahead : Lookahead) (path : Path) : Option Lookahead :=
  ((Request.nested lookahead).at? path).bind Request.nested?

def typesAt (lookahead : Lookahead) (path : Path) : List String :=
  (lookahead.below? path).elim [] Assoc.keys

def requestsAt? (lookahead : Lookahead) (path : Path) (typeName : String) : Option Requests :=
  (lookahead.below? path).bind (Assoc.get? typeName)

def keysAt (lookahead : Lookahead) (path : Path) (typeName : String) : List String :=
  (lookahead.requestsAt? path typeName).elim [] Assoc.keys

end Lookahead

theorem Requests.paths_eq (typeName : String) (requests : Requests) :
    Requests.paths typeName requests = requests.flatMap fun entry =>
      entry.2.paths.map fun below => ((typeName, entry.1) :: below.1, below.2) := by
  induction requests with
  | nil => rfl
  | cons entry rest ih => rw [Requests.paths, ih, List.flatMap_cons]

theorem Lookahead.paths_eq (lookahead : Lookahead) :
    lookahead.paths = lookahead.flatMap fun entry => Requests.paths entry.1 entry.2 := by
  induction lookahead with
  | nil => rfl
  | cons entry rest ih => rw [Lookahead.paths, ih, List.flatMap_cons]

theorem Request.Distinct.nested? {request : Request} (distinct : request.Distinct)
    {below : Lookahead} (found : request.nested? = some below) : below.Distinct := by
  cases request with
  | leaf => cases found
  | nested inside =>
      cases found
      rwa [Request.Distinct] at distinct

theorem Request.Distinct.requests {request : Request} (distinct : request.Distinct)
    {typeName : String} {requests : Requests}
    (found : request.nested?.bind (Assoc.get? typeName) = some requests) : requests.Distinct := by
  obtain ⟨below, nested, found⟩ := Option.bind_eq_some_iff.mp found
  exact Lookahead.Distinct.get? (distinct.nested? nested) found

theorem Request.Distinct.request {request inner : Request} (distinct : request.Distinct)
    {typeName key : String}
    (found : (request.nested?.bind (Assoc.get? typeName)).bind (Assoc.get? key) = some inner) :
    inner.Distinct := by
  obtain ⟨requests, inside, found⟩ := Option.bind_eq_some_iff.mp found
  exact Requests.Distinct.get? (distinct.requests inside) found

theorem Request.Distinct.at? {request : Request} (distinct : request.Distinct) {path : Path}
    {found : Request} (leads : request.at? path = some found) : found.Distinct := by
  induction path generalizing request with
  | nil =>
      cases leads
      exact distinct
  | cons step path ih =>
      rw [Request.at?] at leads
      obtain ⟨inner, inside, leads⟩ := Option.bind_eq_some_iff.mp leads
      exact ih (distinct.request inside) leads

theorem Lookahead.Distinct.below? {lookahead : Lookahead} (distinct : lookahead.Distinct)
    {path : Path} {below : Lookahead} (leads : lookahead.below? path = some below) :
    below.Distinct := by
  obtain ⟨request, leads, nested⟩ := Option.bind_eq_some_iff.mp leads
  exact (distinct.nested.at? leads).nested? nested

theorem Lookahead.Distinct.requestsAt? {lookahead : Lookahead} (distinct : lookahead.Distinct)
    {path : Path} {typeName : String} {requests : Requests}
    (leads : lookahead.requestsAt? path typeName = some requests) : requests.Distinct := by
  obtain ⟨below, leads, found⟩ := Option.bind_eq_some_iff.mp leads
  exact Lookahead.Distinct.get? (distinct.below? leads) found

section Members

variable {path : Path} {shape : Request.Shape}

theorem Lookahead.mem_paths_cons {lookahead : Lookahead} {typeName key : String}
    (distinct : lookahead.Distinct) :
    ((typeName, key) :: path, shape) ∈ lookahead.paths ↔
      ∃ requests, Assoc.get? typeName lookahead = some requests ∧
        ∃ request, Assoc.get? key requests = some request ∧ (path, shape) ∈ request.paths := by
  rw [Lookahead.paths_eq, List.mem_flatMap]
  constructor
  · rintro ⟨⟨_, requests⟩, member, here⟩
    rw [Requests.paths_eq, List.mem_flatMap] at here
    obtain ⟨⟨_, request⟩, inner, here⟩ := here
    obtain ⟨_, below, ⟨⟩⟩ := List.mem_map.mp here
    have found := (Assoc.get?_eq_some distinct.nodup).mpr member
    have inside := Requests.Distinct.nodup (distinct.get? found)
    exact ⟨requests, found, request, (Assoc.get?_eq_some inside).mpr inner, below⟩
  · rintro ⟨requests, found, request, here, below⟩
    refine ⟨(typeName, requests), Assoc.mem_of_get? found, ?_⟩
    rw [Requests.paths_eq, List.mem_flatMap]
    exact ⟨(key, request), Assoc.mem_of_get? here, List.mem_map.mpr ⟨_, below, rfl⟩⟩

theorem Lookahead.ne_nil_of_mem_paths {lookahead : Lookahead}
    (member : (path, shape) ∈ lookahead.paths) : path ≠ [] := by
  rintro rfl
  rw [Lookahead.paths_eq, List.mem_flatMap] at member
  obtain ⟨entry, _, member⟩ := member
  rw [Requests.paths_eq, List.mem_flatMap] at member
  obtain ⟨inner, _, member⟩ := member
  obtain ⟨_, _, ⟨⟩⟩ := List.mem_map.mp member

theorem Request.mem_paths_iff {request : Request} (distinct : request.Distinct) :
    (path, shape) ∈ request.paths ↔ (request.at? path).map Request.shape = some shape := by
  induction path generalizing request with
  | nil =>
      cases request with
      | leaf => simp [Request.paths, at?, Request.shape, eq_comm]
      | nested below =>
          have others : ([], shape) ∉ Lookahead.paths below := fun member =>
            Lookahead.ne_nil_of_mem_paths member rfl
          simp [Request.paths, at?, Request.shape, others, eq_comm]
  | cons step path ih =>
      obtain ⟨typeName, key⟩ := step
      cases request with
      | leaf => simp [Request.paths, at?, nested?]
      | nested below =>
          have belowDistinct := distinct.nested? rfl
          rw [Request.paths, List.mem_cons, or_iff_right (by simp),
            Lookahead.mem_paths_cons belowDistinct, at?, nested?, Option.bind_some]
          cases found : Assoc.get? typeName below with
          | none => simp
          | some requests =>
              have inside := Lookahead.Distinct.get? belowDistinct found
              cases here : Assoc.get? key requests with
              | none => simp [here]
              | some request => simpa [here] using ih (Requests.Distinct.get? inside here)

theorem Lookahead.mem_paths_iff {lookahead : Lookahead} (distinct : lookahead.Distinct) :
    (path, shape) ∈ lookahead.paths ↔
      path ≠ [] ∧ ((Request.nested lookahead).at? path).map Request.shape = some shape := by
  rw [← Request.mem_paths_iff distinct.nested, Request.paths, List.mem_cons]
  constructor
  · exact fun member => ⟨ne_nil_of_mem_paths member, .inr member⟩
  · rintro ⟨long, same | member⟩
    · exact absurd (congrArg Prod.fst same) long
    · exact member

end Members
end FieldLookahead
