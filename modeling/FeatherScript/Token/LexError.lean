import FeatherScript.Diagnostic.Basic
import FeatherScript.Integer

/-!
# Lexical errors

Three things are wrong at the level of characters: a character that starts no token, a digit string
whose value is too large, and a block comment that is never closed. `LexError.diagnostic` reports
each at its place.
-/

namespace FeatherScript

/-- A lexical error with the span it blames. -/
inductive LexError
  | invalidChar (found : Char) (span : Span)
  | intOutOfRange (literal : String) (span : Span)
  | unterminatedComment (span : Span)
deriving DecidableEq

namespace LexError

/-- The place of an error; for a comment it is its opening mark. -/
def span : LexError → Span
  | invalidChar _ span => span
  | intOutOfRange _ span => span
  | unterminatedComment span => span

def code : LexError → ErrorCode
  | invalidChar .. => .invalidChar
  | intOutOfRange .. => .intOutOfRange
  | unterminatedComment .. => .unterminatedComment

def message : LexError → String
  | invalidChar found _ => s!"invalid character `{found}`"
  | intOutOfRange literal _ => s!"integer literal `{literal}` does not fit in 64 bits"
  | unterminatedComment _ => "unterminated block comment"

def remark : LexError → String
  | invalidChar .. => "not valid here"
  | intOutOfRange .. => "literal out of range"
  | unterminatedComment .. => "comment starts here"

def notes : LexError → List String
  | invalidChar .. => []
  | intOutOfRange .. => [s!"the largest integer is {Integer.largest}"]
  | unterminatedComment .. => ["add `*/` to close the comment"]

def diagnostic (e : LexError) : Diagnostic :=
  .errorAt e.code e.message e.span e.remark e.notes

end LexError

end FeatherScript
