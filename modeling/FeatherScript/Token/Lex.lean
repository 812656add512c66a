import FeatherScript.Source.Text
import FeatherScript.Token.Lexeme
import FeatherScript.Token.LexError

/-!
# From source text to tokens

Every lexeme but blanks and comments becomes a token with the byte span of the lexeme, and the list
of tokens ends with the end of the source. Words that are not reserved are interned from left to
right. A stray character and a digit string out of range are errors and leave an invalid token; a
comment that is never closed is an error at its opening mark and leaves no token.

* `lex` reads a whole source with a name table and answers the table it ends with.
-/

namespace FeatherScript

open Text

/-- The tokens of a source, the errors found in it and the names it uses. -/
structure Lexed where
  tokens : List Token
  errors : List LexError
  names : NameTable
deriving DecidableEq

namespace Lexed

def hasErrors (l : Lexed) : Bool := !l.errors.isEmpty

/-- One more token in front. -/
def withToken (kind : TokenKind) (span : Span) (l : Lexed) : Lexed :=
  { l with tokens := ⟨kind, span⟩ :: l.tokens }

/-- One more error in front. -/
def withError (e : LexError) (l : Lexed) : Lexed := { l with errors := e :: l.errors }

end Lexed

/-- The number that a digit string denotes. -/
def decimalValue (digits : List Char) : Nat :=
  digits.foldl (fun n d => 10 * n + (d.toNat - '0'.toNat)) 0

/-- The kind of a word, reserved or not, and the name table afterwards. -/
def wordKind (names : NameTable) (word : String) : TokenKind × NameTable :=
  match Keyword.ofSpelling? word with
  | some k => (.keyword k, names)
  | none =>
    let (name, names) := names.intern word
    (.ident name, names)

/-- The tokens and errors of a list of lexemes, the first of which starts at a byte offset. -/
def Lexed.ofLexemes (start : Nat) (names : NameTable) : List Lexeme → Lexed
  | [] => { tokens := [⟨.endOfFile, .point start⟩], errors := [], names }
  | l :: ls =>
    let stop := start + byteLength l.text
    let span : Span := ⟨start, stop⟩
    match l with
    | .blank _ | .lineComment _ | .blockComment _ => ofLexemes stop names ls
    | .openComment _ =>
      (ofLexemes stop names ls).withError (.unterminatedComment ⟨start, start + 2⟩)
    | .word first more =>
      let (kind, names) := wordKind names (String.ofList (first :: more))
      (ofLexemes stop names ls).withToken kind span
    | .digits first more =>
      match Integer.ofInt? (decimalValue (first :: more)) with
      | some value => (ofLexemes stop names ls).withToken (.int value) span
      | none =>
        ((ofLexemes stop names ls).withToken .invalid span).withError
          (.intOutOfRange (String.ofList (first :: more)) span)
    | .symbol sign => (ofLexemes stop names ls).withToken (.symbol sign) span
    | .stray c =>
      ((ofLexemes stop names ls).withToken .invalid span).withError (.invalidChar c span)

/-- The tokens of a source, with identifiers interned in a given table. -/
def lex (source : String) (names : NameTable) : Lexed :=
  .ofLexemes 0 names (lexemes source.toList)

end FeatherScript
