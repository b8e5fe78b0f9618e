import FieldLookahead.Query.Document
import FieldLookahead.Syntax.Literal
import FieldLookahead.Syntax.TypeForm

/-! Reading executable documents. -/

namespace FieldLookahead.Query

open Syntax

def label? : List Tree → Option (FieldLabel × List Tree)
  | .leaf (.name key) position :: .leaf (.mark .colon) _ :: .leaf (.name name) _ :: rest =>
    some (⟨some key, name, position⟩, rest)
  | .leaf (.name _) _ :: .leaf (.mark .colon) _ :: _ => none
  | .leaf (.name name) position :: rest => some (⟨none, name, position⟩, rest)
  | _ => none

def block? : List Tree → Option (List Tree × List Tree)
  | .group .curly _ (first :: content) :: rest => some (first :: content, rest)
  | _ => none

def optionalBlock? : List Tree → Option (List Tree × List Tree)
  | .group .curly _ [] :: _ => none
  | .group .curly _ content :: rest => some (content, rest)
  | trees => some ([], trees)

def positionOf : List Tree → Position
  | [] => .start
  | tree :: _ => tree.position

/-- A selection whose sub-selections are still to be read: how to complete it, the trees of its
sub-selections, and what follows it. -/
def openSelection? : List Tree → Option ((List Selection → Selection) × List Tree × List Tree)
  | .leaf (.mark .ellipsis) _ :: .leaf (.name "on") position :: .leaf (.name condition) _ ::
      rest => do
    let (content, others) ← (skipDirectives? rest).bind block?
    pure (.inline (some condition) position, content, others)
  | .leaf (.mark .ellipsis) _ :: .leaf (.name "on") _ :: _ => none
  | .leaf (.mark .ellipsis) _ :: .leaf (.name name) position :: rest => do
    let others ← skipDirectives? rest
    pure (fun _ => .spread name position, [], others)
  | .leaf (.mark .ellipsis) _ :: rest => do
    let (content, others) ← (skipDirectives? rest).bind block?
    pure (.inline none (positionOf rest), content, others)
  | trees => do
    let (label, rest) ← label? trees
    let rest ← (skipArguments? rest).bind skipDirectives?
    let (content, others) ← optionalBlock? rest
    pure (.field label, content, others)

theorem sizeOf_le_of_suffix {trees rest : List Tree} (suffix : rest <:+ trees) :
    sizeOf rest ≤ sizeOf trees := by
  obtain ⟨front, rfl⟩ := suffix
  induction front with
  | nil => simp
  | cons tree others ih =>
    simp only [List.cons_append, List.cons.sizeOf_spec]
    omega

theorem sizeOf_label? {trees rest : List Tree} {label : FieldLabel}
    (read : label? trees = some (label, rest)) : sizeOf rest < sizeOf trees := by
  unfold label? at read
  split at read <;> simp at read
  · obtain ⟨-, rfl⟩ := read
    simp only [List.cons.sizeOf_spec]
    omega
  · obtain ⟨-, rfl⟩ := read
    simp only [List.cons.sizeOf_spec]
    omega

theorem sizeOf_block? {trees content rest : List Tree}
    (read : block? trees = some (content, rest)) :
    sizeOf content < sizeOf trees ∧ sizeOf rest < sizeOf trees := by
  unfold block? at read
  split at read <;> simp at read
  obtain ⟨rfl, rfl⟩ := read
  simp only [List.cons.sizeOf_spec, Tree.group.sizeOf_spec]
  omega

theorem sizeOf_optionalBlock? {trees content rest : List Tree}
    (read : optionalBlock? trees = some (content, rest)) :
    sizeOf content ≤ sizeOf trees ∧ sizeOf rest ≤ sizeOf trees := by
  unfold optionalBlock? at read
  split at read <;> simp at read
  · obtain ⟨rfl, rfl⟩ := read
    simp only [List.cons.sizeOf_spec, Tree.group.sizeOf_spec]
    omega
  · obtain ⟨rfl, rfl⟩ := read
    refine ⟨?_, Nat.le_refl _⟩
    cases trees with
    | nil => simp
    | cons =>
      simp only [List.cons.sizeOf_spec, List.nil.sizeOf_spec]
      omega

theorem sizeOf_skipped {trees rest : List Tree} (skipped : skipDirectives? trees = some rest) :
    sizeOf rest ≤ sizeOf trees :=
  sizeOf_le_of_suffix (skipDirectives?_suffix skipped)

theorem sizeOf_openSelection? {trees content rest : List Tree}
    {complete : List Selection → Selection}
    (read : openSelection? trees = some (complete, content, rest)) :
    sizeOf content < sizeOf trees ∧ sizeOf rest < sizeOf trees := by
  unfold openSelection? at read
  split at read <;>
    simp only [bind, pure, Option.bind_eq_some_iff, Option.some.injEq, Prod.mk.injEq, Prod.exists,
      reduceCtorEq] at read
  · obtain ⟨_, _, ⟨_, skipped, found⟩, -, rfl, rfl⟩ := read
    have below := sizeOf_skipped skipped
    have inside := sizeOf_block? found
    simp only [List.cons.sizeOf_spec]
    omega
  · obtain ⟨_, skipped, -, rfl, rfl⟩ := read
    have below := sizeOf_skipped skipped
    simp only [List.cons.sizeOf_spec, List.nil.sizeOf_spec]
    omega
  · obtain ⟨_, _, ⟨_, skipped, found⟩, -, rfl, rfl⟩ := read
    have below := sizeOf_skipped skipped
    have inside := sizeOf_block? found
    simp only [List.cons.sizeOf_spec]
    omega
  · obtain ⟨_, _, labelled, _, ⟨_, passed, skipped⟩, _, _, found, -, rfl, rfl⟩ := read
    have shorter := sizeOf_label? labelled
    have middle := sizeOf_le_of_suffix (skipArguments?_suffix passed)
    have below := sizeOf_skipped skipped
    have inside := sizeOf_optionalBlock? found
    omega

def selections? (trees : List Tree) : Option (List Selection) :=
  match trees with
  | [] => some []
  | tree :: others =>
    match _opened : openSelection? (tree :: others) with
    | none => none
    | some (complete, content, rest) => do
      let below ← selections? content
      let following ← selections? rest
      pure (complete below :: following)
  termination_by sizeOf trees
  decreasing_by
    · exact (sizeOf_openSelection? _opened).1
    · exact (sizeOf_openSelection? _opened).2

def selectionSet? (trees : List Tree) : Option (List Selection × List Tree) := do
  let (content, rest) ← block? trees
  let selections ← selections? content
  pure (selections, rest)

def variableDefinition? : List Tree → Option (Unit × List Tree)
  | .leaf (.mark .dollar) _ :: .leaf (.name _) _ :: .leaf (.mark .colon) _ :: rest => do
    let (_, rest) ← TypeForm.read? rest
    let rest ← skipDefault? rest
    pure ((), rest)
  | _ => none

def skipVariables? : List Tree → Option (List Tree)
  | .group .round _ content :: rest =>
    (Tree.readSome? variableDefinition? content).map fun _ => rest
  | trees => some trees

def optionalName : List Tree → Option String × List Tree
  | .leaf (.name name) _ :: rest => (some name, rest)
  | trees => (none, trees)

def definition? : List Tree → Option (Definition × List Tree)
  | .leaf (.name "fragment") position :: .leaf (.name name) _ :: .leaf (.name "on") _ ::
      .leaf (.name condition) _ :: rest => do
    let rest ← skipDirectives? rest
    let (selections, rest) ← selectionSet? rest
    pure (.fragment ⟨name, condition, position, selections⟩, rest)
  | .leaf (.name keyword) _ :: rest => do
    let kind ← OperationKind.ofKeyword? keyword
    let (name?, rest) := optionalName rest
    let rest ← (skipVariables? rest).bind skipDirectives?
    let (selections, rest) ← selectionSet? rest
    pure (.operation ⟨kind, name?, selections⟩, rest)
  | trees => do
    let (selections, rest) ← selectionSet? trees
    pure (.operation ⟨.query, none, selections⟩, rest)

def Document.ofText? (text : String) : Option Document :=
  (Tree.scan? text).bind (Tree.readSome? definition?)

end FieldLookahead.Query
