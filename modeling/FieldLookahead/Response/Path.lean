/-! Where a value stands in a response. -/

namespace FieldLookahead.Response

inductive Segment where
  | index (position : Nat)
  | key (name : String)
  deriving DecidableEq, Repr

def Segment.text : Segment → String
  | index position => toString position
  | key name => name

/-- The way from the root to a value: through items of lists, and through fields of objects,
whose types may be known. -/
inductive Path where
  | root
  | item (parent : Path) (index : Nat)
  | field (parent : Path) (key : String) (typeName? : Option String)
  deriving DecidableEq, Repr

namespace Path

def isRoot : Path → Bool
  | root => true
  | item .. | field .. => false

def parent? : Path → Option Path
  | root => none
  | item parent _ => some parent
  | field parent _ _ => some parent

def last? : Path → Option Segment
  | root => none
  | item _ index => some (.index index)
  | field _ key _ => some (.key key)

def typeName? : Path → Option String
  | root | item .. => none
  | field _ _ typeName? => typeName?

def segments : Path → List Segment
  | root => []
  | item parent index => parent.segments ++ [.index index]
  | field parent key _ => parent.segments ++ [.key key]

def text (path : Path) : String :=
  String.intercalate "." (path.segments.map Segment.text)

end Path
end FieldLookahead.Response
