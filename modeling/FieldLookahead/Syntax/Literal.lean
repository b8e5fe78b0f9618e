import FieldLookahead.Syntax.Tree

/-! Values, arguments and directives. They are read for their form only: what they say has no
bearing on which fields a query requests. -/

namespace FieldLookahead.Syntax

mutual
/-- A value that is a single tree; inside its brackets variables may be allowed. -/
def isValue (allowed : Bool) : Tree → Bool
  | .leaf (.name _) _ => true
  | .leaf .number _ => true
  | .leaf (.text _) _ => true
  | .leaf _ _ => false
  | .group .square _ items => areValues allowed items
  | .group .curly _ entries => areEntries allowed entries
  | .group .round _ _ => false
  termination_by structural tree => tree

def areValues (allowed : Bool) : List Tree → Bool
  | [] => true
  | .leaf (.mark .dollar) _ :: .leaf (.name _) _ :: rest =>
    allowed && areValues allowed rest
  | value :: rest => isValue allowed value && areValues allowed rest
  termination_by structural trees => trees

def areEntries (allowed : Bool) : List Tree → Bool
  | [] => true
  | .leaf (.name _) _ :: .leaf (.mark .colon) _ :: .leaf (.mark .dollar) _ ::
      .leaf (.name _) _ :: rest =>
    allowed && areEntries allowed rest
  | .leaf (.name _) _ :: .leaf (.mark .colon) _ :: value :: rest =>
    isValue allowed value && areEntries allowed rest
  | _ => false
  termination_by structural trees => trees
end

def skipDefault? : List Tree → Option (List Tree)
  | .leaf (.mark .equals) _ :: value :: rest => if isValue false value then some rest else none
  | .leaf (.mark .equals) _ :: [] => none
  | trees => some trees

def skipArguments? : List Tree → Option (List Tree)
  | .group .round _ entries :: rest =>
    if !entries.isEmpty && areEntries true entries then some rest else none
  | trees => some trees

def skipDirectives? : List Tree → Option (List Tree)
  | .leaf (.mark .atSign) _ :: .leaf (.name _) _ :: .group .round _ entries :: rest =>
    if !entries.isEmpty && areEntries true entries then skipDirectives? rest else none
  | .leaf (.mark .atSign) _ :: .leaf (.name _) _ :: rest => skipDirectives? rest
  | .leaf (.mark .atSign) _ :: _ => none
  | trees => some trees

theorem skipArguments?_suffix {trees rest : List Tree}
    (skipped : skipArguments? trees = some rest) : rest <:+ trees := by
  unfold skipArguments? at skipped
  split at skipped
  · split at skipped
    · cases skipped
      exact List.suffix_cons ..
    · cases skipped
  · cases skipped
    exact List.suffix_refl _

theorem skipDirectives?_suffix {trees rest : List Tree}
    (skipped : skipDirectives? trees = some rest) : rest <:+ trees := by
  fun_induction skipDirectives? trees with
  | case1 _ _ _ _ _ others _ ih =>
    exact (ih skipped).trans ⟨[_, _, _], rfl⟩
  | case2 => cases skipped
  | case3 _ _ _ others _ ih =>
    exact (ih skipped).trans ⟨[_, _], rfl⟩
  | case4 => cases skipped
  | case5 =>
    cases skipped
    exact List.suffix_refl _

end FieldLookahead.Syntax
