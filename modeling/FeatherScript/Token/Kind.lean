import FeatherScript.Integer
import FeatherScript.Name
import FeatherScript.Source.Span

/-!
# Tokens

A token is a kind and the span of its spelling. The kinds are integer literals, identifiers, nine
keywords, the symbols, and two that have no fixed spelling: the mark left where no token could be
read, and the end of the source.

* `Keyword.ofSpelling?` and `Symbol.ofChars?` read spellings back.
* `TokenKind.description` is how a message names a token, `TokenKind.text` how a listing shows it.
-/

namespace FeatherScript

/-! ## Keywords -/

/-- The reserved words. -/
inductive Keyword
  | kwIf
  | kwElse
  | kwWhile
  | kwFunction
  | kwVar
  | kwPrint
  | kwTrue
  | kwFalse
  | kwNull
deriving DecidableEq

namespace Keyword

def spelling : Keyword → String
  | kwIf => "if"
  | kwElse => "else"
  | kwWhile => "while"
  | kwFunction => "function"
  | kwVar => "var"
  | kwPrint => "print"
  | kwTrue => "true"
  | kwFalse => "false"
  | kwNull => "null"

/-- The name of a keyword in token listings. -/
def label : Keyword → String
  | kwIf => "If"
  | kwElse => "Else"
  | kwWhile => "While"
  | kwFunction => "Function"
  | kwVar => "Var"
  | kwPrint => "Print"
  | kwTrue => "True"
  | kwFalse => "False"
  | kwNull => "Null"

def all : List Keyword :=
  [kwIf, kwElse, kwWhile, kwFunction, kwVar, kwPrint, kwTrue, kwFalse, kwNull]

def ofSpelling? (word : String) : Option Keyword := all.find? (·.spelling = word)

end Keyword

/-! ## Symbols -/

/-- Delimiters and operator signs. -/
inductive Symbol
  | leftParen
  | rightParen
  | leftBrace
  | rightBrace
  | comma
  | semicolon
  | assign
  | equal
  | less
  | lessEqual
  | greater
  | greaterEqual
  | plus
  | minus
  | star
  | slash
  | percent
deriving DecidableEq

namespace Symbol

def spelling : Symbol → String
  | leftParen => "("
  | rightParen => ")"
  | leftBrace => "\x7b"
  | rightBrace => "\x7d"
  | comma => ","
  | semicolon => ";"
  | assign => "="
  | equal => "=="
  | less => "<"
  | lessEqual => "<="
  | greater => ">"
  | greaterEqual => ">="
  | plus => "+"
  | minus => "-"
  | star => "*"
  | slash => "/"
  | percent => "%"

/-- The name of a symbol in token listings. -/
def label : Symbol → String
  | leftParen => "LParen"
  | rightParen => "RParen"
  | leftBrace => "LBrace"
  | rightBrace => "RBrace"
  | comma => "Comma"
  | semicolon => "Semicolon"
  | assign => "Eq"
  | equal => "EqEq"
  | less => "Lt"
  | lessEqual => "LtEq"
  | greater => "Gt"
  | greaterEqual => "GtEq"
  | plus => "Plus"
  | minus => "Minus"
  | star => "Star"
  | slash => "Slash"
  | percent => "Percent"

def all : List Symbol :=
  [leftParen, rightParen, leftBrace, rightBrace, comma, semicolon, assign, equal, less, lessEqual,
    greater, greaterEqual, plus, minus, star, slash, percent]

def ofChars? (cs : List Char) : Option Symbol := all.find? (·.spelling.toList = cs)

end Symbol

/-! ## Token kinds -/

/-- What a token is, apart from its place. -/
inductive TokenKind
  | int (value : Int64)
  | ident (name : Name)
  | keyword (word : Keyword)
  | symbol (sign : Symbol)
  | invalid
  | endOfFile
deriving DecidableEq

namespace TokenKind

/-- How messages name a token of this kind. -/
def description : TokenKind → String
  | int _ => "integer"
  | ident _ => "identifier"
  | keyword word => s!"`{word.spelling}`"
  | symbol sign => s!"`{sign.spelling}`"
  | invalid => "invalid token"
  | endOfFile => "end of file"

/-- How listings show a kind, given how they show names. -/
def text (showName : Name → String) : TokenKind → String
  | int value => s!"Int({Integer.text value})"
  | ident name => s!"Ident({showName name})"
  | keyword word => word.label
  | symbol sign => sign.label
  | invalid => "Error"
  | endOfFile => "Eof"

end TokenKind

/-- A token kind with the span of its spelling. -/
structure Token where
  kind : TokenKind
  span : Span
deriving DecidableEq

namespace Token

/-- How listings show a token, given how they show names. -/
def text (showName : Name → String) (t : Token) : String :=
  s!"{t.kind.text showName} @ {t.span.text}"

/-- The debugging text of a list of tokens, where names stand by number. -/
def debugList (tokens : List Token) : String :=
  "[" ++ String.intercalate ", " (tokens.map (text Name.debug)) ++ "]"

end Token

end FeatherScript
