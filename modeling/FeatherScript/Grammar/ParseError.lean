import FeatherScript.Diagnostic.Basic
import FeatherScript.Token.Kind

/-!
# Syntax errors

A syntax error is a token together with what the grammar allows in its place. Where the grammar asks
for one of a few symbols, the message names them; elsewhere it names an expression or an identifier.
-/

namespace FeatherScript

/-- What the grammar asks for at some place. -/
inductive Expectation
  | terminator
  | openParen
  | closeParen
  | closeParenOrComma
  | assignSign
  | closeBrace
  | expression
  | identifier
deriving DecidableEq

namespace Expectation

/-- What is asked for, in the words of a message. -/
def text : Expectation → String
  | terminator => "`;`"
  | openParen => "`(`"
  | closeParen => "`)`"
  | closeParenOrComma => "`)` or `,`"
  | assignSign => "`=`"
  | closeBrace => "`\x7d`"
  | expression => "expression"
  | identifier => "identifier"

def code : Expectation → ErrorCode
  | expression => .expectedExpression
  | identifier => .expectedIdentifier
  | _ => .unexpectedToken

def remark : Expectation → String
  | expression => "expected expression"
  | identifier => "expected a name"
  | other => s!"expected {other.text} here"

def notes : Expectation → List String
  | terminator => ["statements end with `;` unless they close a block"]
  | _ => []

end Expectation

/-- A token that the grammar does not allow where it was found. -/
structure ParseError where
  expected : Expectation
  found : Token
deriving DecidableEq

namespace ParseError

def message (e : ParseError) : String :=
  s!"expected {e.expected.text}, found {e.found.kind.description}"

def span (e : ParseError) : Span := e.found.span

def diagnostic (e : ParseError) : Diagnostic :=
  .errorAt e.expected.code e.message e.span e.expected.remark e.expected.notes

end ParseError

end FeatherScript
