import FieldLookahead.Decimal.Shortest
import FieldLookahead.Text.Quoted
import FieldLookahead.Value.Basic

/-! Values as a reader is shown them: short, and finite even where nodes contain themselves. -/

namespace FieldLookahead.Value

def shownItems : Nat := 10

/-- Within more nodes than this, a list or object that is not empty is only named. -/
def shownDepth : Nat := 2

inductive Node where
  | container (node : Nat)
  | hook (name : String)
  deriving DecidableEq, Repr

def floatText (bits : UInt64) : String :=
  match Decimal.Binary.ofBits bits with
  | .notANumber => "NaN"
  | .infinite negative => if negative then "-Infinity" else "Infinity"
  | .finite _ 0 _ => "0"
  | .finite negative mantissa exponent =>
    (if negative then "-" else "") ++ Decimal.shortestText mantissa exponent

def moreItems : Nat → List String
  | 0 => []
  | 1 => ["... 1 more item"]
  | count => ["... " ++ toString count ++ " more items"]

/-- Shows a node within the nodes around it, unless it is one of them. -/
def within (around : List Node) (node : Node) (shown : List Node → String) : String :=
  if node ∈ around then "[Circular]" else shown (node :: around)

mutual
def showWith (showHook : List Node → String → String) (around : List Node) : Value → String
  | null => "null"
  | bool truth => if truth then "true" else "false"
  | int value => toString value
  | float bits => floatText bits
  | text content => Text.quoted content
  | enum name => name
  | list node items =>
    within around (.container node) fun inside =>
      if items.isEmpty then "[]"
      else if shownDepth < inside.length then "[Array]"
      else
        "[" ++ String.intercalate ", " (showItems showHook inside shownItems items ++
          moreItems (items.length - shownItems)) ++ "]"
  | object node typeName? fields =>
    within around (.container node) fun inside =>
      if fields.isEmpty then "\x7b\x7d"
      else if shownDepth < inside.length then "[" ++ typeName?.getD "Object" ++ "]"
      else "\x7b " ++ String.intercalate ", " (showFields showHook inside fields) ++ " \x7d"
  | hooked hook => showHook around hook
  termination_by structural value => value

def showItems (showHook : List Node → String → String) (around : List Node) (limit : Nat) :
    List Value → List String
  | [] => []
  | item :: rest =>
    if limit = 0 then []
    else showWith showHook around item :: showItems showHook around (limit - 1) rest
  termination_by structural items => items

def showFields (showHook : List Node → String → String) (around : List Node) :
    List (String × Value) → List String
  | [] => []
  | (key, value) :: rest =>
    (key ++ ": " ++ showWith showHook around value) :: showFields showHook around rest
  termination_by structural fields => fields
end

/-- Shows what a hook shows, within no more further hooks than a limit; a text stands without
quotes. -/
def showHook (hooks : Hooks) : Nat → List Node → String → String
  | 0, around, name => within around (.hook name) fun _ => ""
  | limit + 1, around, name =>
    within around (.hook name) fun inside =>
      match Assoc.get? name hooks with
      | none => ""
      | some (.text content) => content
      | some value => showWith (showHook hooks limit) inside value

/-- The value as text. Hooks are shown within each other no more often than there are hooks. -/
def inspect (hooks : Hooks) (value : Value) : String :=
  showWith (showHook hooks hooks.length) [] value

end FieldLookahead.Value
