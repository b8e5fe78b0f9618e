import FieldLookahead.Text.Literal
import FieldLookahead.Text.Utf8

/-! Why a file cannot be read as text. -/

namespace FieldLookahead.Files

inductive ReadFault where
  | notAFile (path : String)
  | unreadable (path reason : String)
  | undecodable (path : String) (fault : Text.Utf8.Fault)
  deriving DecidableEq, Repr

def ReadFault.message : ReadFault → String
  | notAFile path => "`" ++ Text.literal path ++ "` is not a file"
  | unreadable path reason => "Failed to read `" ++ Text.literal path ++ "`: " ++ reason
  | undecodable path fault =>
    "`" ++ Text.literal path ++ "` is not valid utf-8: " ++ fault.message

end FieldLookahead.Files
