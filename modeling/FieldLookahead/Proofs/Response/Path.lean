import FieldLookahead.Proofs.Syntax.Word
import FieldLookahead.Response.Path
import Mathlib.Data.List.Infix
import Mathlib.Tactic.SplitIfs

namespace FieldLookahead.Response

/-! A path is the list of its segments with the types along it, however it was made, and its text
tells the segments. -/

/-- A move from a path to the next one. -/
inductive Move where
  | item (index : Nat)
  | field (key : String) (typeName? : Option String)
  | up
  deriving DecidableEq, Repr

section Making

variable {Place Label : Type} {move? : Place → Move → Option Place}
  {relabel? : Label → Move → Option Label} {label : Place → Label} {made earlier later : List Place}

/-- What was made so far, and where a move leads to from one of the places made. -/
def extend? (move? : Place → Move → Option Place) (made : List Place) (step : Nat × Move) :
    Option (List Place) :=
  made[step.1]?.bind fun source => (move? source step.2).map fun next => made ++ [next]

def make? (move? : Place → Move → Option Place) (first : Place) (steps : List (Nat × Move)) :
    Option (List Place) :=
  steps.foldlM (extend? move?) [first]

section Labelling

variable (follows : ∀ place move, (move? place move).map label = relabel? (label place) move)
include follows

theorem map_extend? (made : List Place) (step : Nat × Move) :
    (extend? move? made step).map (List.map label) = extend? relabel? (made.map label) step := by
  rw [extend?, extend?, List.getElem?_map]
  cases made[step.1]? with
  | none => rfl
  | some source =>
      simp only [Option.bind_some, Option.map_some, ← follows, Option.map_map]
      congr 1
      funext next
      simp

theorem map_foldlM_extend? (made : List Place) (steps : List (Nat × Move)) :
    (steps.foldlM (extend? move?) made).map (List.map label) =
      steps.foldlM (extend? relabel?) (made.map label) := by
  induction steps generalizing made with
  | nil => rfl
  | cons step steps ih =>
      rw [List.foldlM_cons, List.foldlM_cons, ← map_extend? follows]
      cases extend? move? made step with
      | none => rfl
      | some made => exact ih made

end Labelling

theorem prefix_of_extend? {step : Nat × Move} (extended : extend? move? made step = some later) :
    made <+: later := by
  obtain ⟨source, _, moved⟩ := Option.bind_eq_some_iff.mp extended
  obtain ⟨next, _, rfl⟩ := Option.map_eq_some_iff.mp moved
  exact List.prefix_append made [next]

theorem prefix_of_foldlM_extend? {steps : List (Nat × Move)}
    (extended : steps.foldlM (extend? move?) made = some later) : made <+: later := by
  induction steps generalizing made with
  | nil =>
      cases extended
      exact List.prefix_rfl
  | cons step steps ih =>
      obtain ⟨next, extendedHere, extendedThere⟩ := Option.bind_eq_some_iff.mp extended
      exact (prefix_of_extend? extendedHere).trans (ih extendedThere)

theorem prefix_of_make? {first : Place} {steps more : List (Nat × Move)}
    (start : make? move? first steps = some earlier)
    (onward : make? move? first (steps ++ more) = some later) : earlier <+: later := by
  rw [make?, List.foldlM_append, ← make?, start] at onward
  exact prefix_of_foldlM_extend? onward

end Making

def Segments.move? (segments : List Segment) : Move → Option (List Segment)
  | .item index => some (segments ++ [.index index])
  | .field key _ => some (segments ++ [.key key])
  | .up => if segments = [] then none else some segments.dropLast

/-- A number, or a key that is a name. -/
def Segment.Named : Segment → Prop
  | .index _ => True
  | .key name => Syntax.isName name = true

namespace Segment

variable {segment one other : Segment}

theorem Named.dot_notMem (named : segment.Named) : '.' ∉ segment.text.toList := by
  cases segment with
  | index position => exact fun member => absurd (Syntax.isDigit_of_mem_numeral member) (by decide)
  | key name => exact Syntax.notMem_of_isName named (by decide)

theorem Named.text_ne_nil (named : segment.Named) : segment.text.toList ≠ [] := by
  cases segment with
  | index position =>
      obtain ⟨first, rest, written, _⟩ := Syntax.exists_digit_numeral position
      exact written.trans_ne (List.cons_ne_nil first rest)
  | key name =>
      obtain ⟨first, rest, spelled, _⟩ := Syntax.isName_iff.mp named
      exact spelled.trans_ne (List.cons_ne_nil first rest)

theorem Named.text_inj (named : one.Named) (named' : other.Named) (same : one.text = other.text) :
    one = other := by
  cases one with
  | index position =>
      cases other with
      | index position' => exact congrArg index (Syntax.numeral_inj.mp same)
      | key name => exact absurd same (Syntax.numeral_ne_name named' position)
  | key name =>
      cases other with
      | index position => exact absurd same.symm (Syntax.numeral_ne_name named position)
      | key name' => exact congrArg key same

theorem map_text_inj {one other : List Segment} (named : ∀ segment ∈ one, segment.Named)
    (named' : ∀ segment ∈ other, segment.Named)
    (same : one.map (·.text.toList) = other.map (·.text.toList)) : one = other := by
  induction one generalizing other with
  | nil => exact (List.map_eq_nil_iff.mp same.symm).symm
  | cons segment one ih =>
      cases other with
      | nil => cases same
      | cons segment' other =>
          rw [List.map_cons, List.map_cons, List.cons.injEq, String.toList_inj] at same
          obtain ⟨here, there⟩ := List.forall_mem_cons.mp named
          obtain ⟨here', there'⟩ := List.forall_mem_cons.mp named'
          rw [here.text_inj here' same.1, ih there there' same.2]

end Segment

namespace Path

variable {path one other : Path}

def move? (path : Path) : Move → Option Path
  | .item index => some (path.item index)
  | .field key typeName? => some (path.field key typeName?)
  | .up => path.parent?

theorem segments_move? (path : Path) (move : Move) :
    (path.move? move).map segments = Segments.move? path.segments move := by
  cases move with
  | item index => rfl
  | field key typeName? => rfl
  | up => cases path <;> simp [move?, parent?, Segments.move?, segments]

/-! The places along a path. -/

def prefixes : Path → List Path
  | root => [root]
  | item parent index => parent.prefixes ++ [item parent index]
  | field parent key typeName? => parent.prefixes ++ [field parent key typeName?]

theorem segments_prefixes (path : Path) : path.prefixes.map segments = path.segments.inits := by
  induction path with
  | root => rfl
  | item parent index ih => simp [prefixes, segments, ih, List.inits_append]
  | field parent key typeName? ih => simp [prefixes, segments, ih, List.inits_append]

theorem eq_iff : one = other ↔ one.segments = other.segments ∧
    one.prefixes.map typeName? = other.prefixes.map typeName? := by
  refine ⟨by rintro rfl; exact ⟨rfl, rfl⟩, ?_⟩
  rintro ⟨segmentwise, typewise⟩
  induction one generalizing other with
  | root => cases other <;> simp_all [segments]
  | item parent index ih =>
      cases other with
      | item parent' index' =>
          simp only [segments, prefixes, List.map_append, List.map_singleton,
            List.append_singleton_inj, Segment.index.injEq] at segmentwise typewise
          rw [ih segmentwise.1 typewise.1, segmentwise.2]
      | root | field => simp [segments] at segmentwise
  | field parent key type ih =>
      cases other with
      | field parent' key' type' =>
          simp only [segments, prefixes, List.map_append, List.map_singleton,
            List.append_singleton_inj, Segment.key.injEq] at segmentwise typewise
          rw [ih segmentwise.1 typewise.1, segmentwise.2]
          exact congrArg _ typewise.2
      | root | item => simp [segments] at segmentwise

/-! The text of a path whose keys are names. -/

def Named (path : Path) : Prop := ∀ segment ∈ path.segments, segment.Named

theorem Named.splitOn_text (named : path.Named) :
    path.text.toList.splitOn '.' =
      if path.segments = [] then [[]] else path.segments.map (·.text.toList) := by
  rw [text, String.toList_intercalate, List.map_map]
  split_ifs with short
  · simp [short]
  · apply List.splitOn_intercalate
    · simpa using fun segment member => (named segment member).dot_notMem
    · simpa using short

theorem Named.map_text_ne (named : path.Named) :
    path.segments.map (·.text.toList) ≠ [[]] := by
  intro empty
  obtain ⟨segment, member, nothing⟩ := List.mem_map.mp (empty ▸ List.mem_singleton_self [])
  exact (named segment member).text_ne_nil nothing

theorem Named.segments_eq (named : one.Named) (named' : other.Named)
    (same : one.text = other.text) : one.segments = other.segments := by
  have parts := named.splitOn_text
  rw [same, named'.splitOn_text] at parts
  split_ifs at parts with short' short short
  · rw [short, short']
  · exact absurd parts.symm named.map_text_ne
  · exact absurd parts named'.map_text_ne
  · exact (Segment.map_text_inj named' named parts).symm

/-- The segments of the paths that moves make are the lists that the same moves make, what is made
stays, and the way up takes a step back. Paths are equal if their segments are and the types at all
places along them, and the text of a path tells its segments if all its keys are names. -/
theorem made_by_moves :
    (∀ steps, (make? move? root steps).map (List.map segments) = make? Segments.move? [] steps) ∧
    (∀ steps more earlier later, make? move? root steps = some earlier →
      make? move? root (steps ++ more) = some later → earlier <+: later) ∧
    (∀ (path : Path) move, move ≠ .up → (path.move? move).bind parent? = some path) ∧
    (∀ path : Path, path.prefixes.map segments = path.segments.inits) ∧
    (∀ one other : Path, one = other ↔ one.segments = other.segments ∧
      one.prefixes.map typeName? = other.prefixes.map typeName?) ∧
    ∀ one other : Path, one.Named → other.Named → one.text = other.text →
      one.segments = other.segments := by
  refine ⟨fun steps => map_foldlM_extend? segments_move? [root] steps,
    fun _ _ _ _ => prefix_of_make?, fun path move onward => ?_, segments_prefixes,
    fun _ _ => eq_iff, fun _ _ => Named.segments_eq⟩
  cases move with
  | item index => rfl
  | field key typeName? => rfl
  | up => exact absurd rfl onward

def users : Path := root.field "users" (some "Query")

def untyped : Path := root.field "users" none

def usersMoves : List (Nat × Move) := [(0, .field "users" (some "Query")), (1, .item 0)]

def siblingMoves : List (Nat × Move) := [(1, .item 1), (3, .up), (0, .field "users" none)]

theorem made_by_moves_of_users :
    make? move? root usersMoves = some [root, users, users.item 0] ∧
    make? Segments.move? [] usersMoves = some [[], [.key "users"], [.key "users", .index 0]] ∧
    make? move? root (usersMoves ++ siblingMoves) =
      some [root, users, users.item 0, users.item 1, users, untyped] ∧
    [root, users, users.item 0] <+: [root, users, users.item 0, users.item 1, users, untyped] ∧
    Move.item 0 ≠ .up ∧ (users.move? (.item 0)).bind parent? = some users ∧
    users ≠ untyped ∧ users.Named ∧ untyped.Named ∧ users.text = untyped.text ∧
    users.segments = untyped.segments := by
  obtain ⟨lists, stays, undone, _, equal, told⟩ := made_by_moves
  have start : make? move? root usersMoves = some [root, users, users.item 0] := by decide
  have onward : make? move? root (usersMoves ++ siblingMoves) =
      some [root, users, users.item 0, users.item 1, users, untyped] := by decide
  have apart : users ≠ untyped := fun same => absurd ((equal _ _).mp same).2 (by decide)
  have named : users.Named := by simp [Named, users, segments, Segment.Named]; decide
  have named' : untyped.Named := by simp [Named, untyped, segments, Segment.Named]; decide
  exact ⟨start, by rw [← lists, start]; rfl, onward, stays _ _ _ _ start onward, by decide,
    undone users (.item 0) (by decide), apart, named, named', rfl, told _ _ named named' rfl⟩

end Path
end FieldLookahead.Response
