import FieldLookahead.Text.Quoted

/-! JSON trees whose objects keep the order of their members, and their two written forms. -/

namespace FieldLookahead

inductive Json where
  | null
  | bool (truth : Bool)
  | number (value : Nat)
  | text (content : String)
  | array (items : List Json)
  | object (members : List (String × Json))
  deriving Repr

namespace Json

def ofText? : Option String → Json
  | none => .null
  | some content => .text content

def ofTexts (contents : List String) : Json :=
  .array (contents.map .text)

mutual
def compact : Json → String
  | .null => "null"
  | .bool true => "true"
  | .bool false => "false"
  | .number value => toString value
  | .text content => Text.quoted content
  | .array items => "[" ++ String.intercalate "," (compactItems items) ++ "]"
  | .object members => "\x7b" ++ String.intercalate "," (compactMembers members) ++ "\x7d"
  termination_by structural json => json

def compactItems : List Json → List String
  | [] => []
  | item :: rest => compact item :: compactItems rest
  termination_by structural items => items

def compactMembers : List (String × Json) → List String
  | [] => []
  | (key, value) :: rest => (Text.quoted key ++ ":" ++ compact value) :: compactMembers rest
  termination_by structural members => members
end

def block (indent opening closing : String) : List String → String
  | [] => opening ++ closing
  | entries =>
    opening ++ "\n" ++
      String.intercalate ",\n" (entries.map fun entry => indent ++ "  " ++ entry) ++
      "\n" ++ indent ++ closing

mutual
/-- The form with one entry a line, two more spaces for each level; `indent` is what the
lines of the surrounding block begin with. -/
def pretty (indent : String) : Json → String
  | .array items => block indent "[" "]" (prettyItems (indent ++ "  ") items)
  | .object members => block indent "\x7b" "\x7d" (prettyMembers (indent ++ "  ") members)
  | .null => "null"
  | .bool true => "true"
  | .bool false => "false"
  | .number value => toString value
  | .text content => Text.quoted content
  termination_by structural json => json

def prettyItems (indent : String) : List Json → List String
  | [] => []
  | item :: rest => pretty indent item :: prettyItems indent rest
  termination_by structural items => items

def prettyMembers (indent : String) : List (String × Json) → List String
  | [] => []
  | (key, value) :: rest =>
    (Text.quoted key ++ ": " ++ pretty indent value) :: prettyMembers indent rest
  termination_by structural members => members
end

mutual
def sortKeys : Json → Json
  | .array items => .array (sortKeysItems items)
  | .object members =>
    .object ((sortKeysMembers members).mergeSort fun left right => left.1 ≤ right.1)
  | .null => .null
  | .bool truth => .bool truth
  | .number value => .number value
  | .text content => .text content
  termination_by structural json => json

def sortKeysItems : List Json → List Json
  | [] => []
  | item :: rest => sortKeys item :: sortKeysItems rest
  termination_by structural items => items

def sortKeysMembers : List (String × Json) → List (String × Json)
  | [] => []
  | (key, value) :: rest => (key, sortKeys value) :: sortKeysMembers rest
  termination_by structural members => members
end

end Json
end FieldLookahead
