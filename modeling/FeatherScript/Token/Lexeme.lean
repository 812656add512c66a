import FeatherScript.Token.Kind

/-!
# Cutting a source into lexemes

A source is cut from left to right into lexemes, each the longest piece that can start where the one
before it ended: blanks and comments, words, digit strings, symbols, and single characters that
start nothing. A block comment ends at the first closing mark after its opening one; an opening mark
without a closing one takes the rest of the source.

* `text_next`: a lexeme and the rest after it make up the text they were cut from.
* `text_lexemes`: all lexemes together spell the source, character by character.
-/

namespace FeatherScript

/-! ## Classes of characters -/

/-- Blank space, tab, carriage return, line feed and form feed; no other character is blank. -/
def isBlank (c : Char) : Bool := c = ' ' || c = '\t' || c = '\r' || c = '\n' || c = '\x0c'

/-- The characters that start a word: ASCII letters and the underscore. -/
def isWordStart (c : Char) : Bool := c.isAlpha || c = '_'

/-- The characters that continue a word: ASCII letters, digits and the underscore. -/
def isWordPart (c : Char) : Bool := c.isAlphanum || c = '_'

/-! ## Lexemes -/

/-- A piece of source text of one kind. -/
inductive Lexeme
  | blank (c : Char)
  | lineComment (body : List Char)
  | blockComment (body : List Char)
  | openComment (body : List Char)
  | word (first : Char) (more : List Char)
  | digits (first : Char) (more : List Char)
  | symbol (sign : Symbol)
  | stray (c : Char)
deriving DecidableEq

namespace Lexeme

def text : Lexeme → List Char
  | blank c => [c]
  | lineComment body => '/' :: '/' :: body
  | blockComment body => '/' :: '*' :: (body ++ ['*', '/'])
  | openComment body => '/' :: '*' :: body
  | word first more => first :: more
  | digits first more => first :: more
  | symbol sign => sign.spelling.toList
  | stray c => [c]

/-- The text before the first closing mark of a comment, and the text after that mark. -/
def splitComment? : List Char → Option (List Char × List Char)
  | [] => none
  | '*' :: '/' :: rest => some ([], rest)
  | c :: cs => (splitComment? cs).map fun parts => (c :: parts.1, parts.2)

/-- The symbol at the start of a text, two characters being preferred to one. -/
def nextSymbol? (c : Char) (cs : List Char) : Option (Symbol × List Char) :=
  match cs with
  | [] => (Symbol.ofChars? [c]).map (·, [])
  | d :: ds =>
    match Symbol.ofChars? [c, d] with
    | some sign => some (sign, ds)
    | none => (Symbol.ofChars? [c]).map (·, d :: ds)

/-- The lexeme at the start of a text that starts with a slash, if it is a comment. -/
def nextComment? (c : Char) (cs : List Char) : Option (Lexeme × List Char) :=
  match c, cs with
  | '/', '/' :: body => some (lineComment (body.takeWhile (· ≠ '\n')), body.dropWhile (· ≠ '\n'))
  | '/', '*' :: body =>
    match splitComment? body with
    | some (inner, rest) => some (blockComment inner, rest)
    | none => some (openComment body, [])
  | _, _ => none

/-- The lexeme at the start of a nonempty text, and the rest of that text. -/
def next (c : Char) (cs : List Char) : Lexeme × List Char :=
  if isBlank c then (blank c, cs)
  else if isWordStart c then (word c (cs.takeWhile isWordPart), cs.dropWhile isWordPart)
  else if c.isDigit then (digits c (cs.takeWhile Char.isDigit), cs.dropWhile Char.isDigit)
  else
    match nextComment? c cs with
    | some found => found
    | none =>
      match nextSymbol? c cs with
      | some (sign, rest) => (symbol sign, rest)
      | none => (stray c, cs)

/-! ## Nothing is lost -/

theorem splitComment?_eq_some {cs body rest : List Char}
    (h : splitComment? cs = some (body, rest)) : body ++ '*' :: '/' :: rest = cs := by
  fun_induction splitComment? cs generalizing body rest with
  | case1 => cases h
  | case2 tail =>
    cases h
    rfl
  | case3 c cs _ ih =>
    obtain ⟨⟨inner, after⟩, hSplit, hParts⟩ := Option.map_eq_some_iff.mp h
    cases hParts
    simpa using ih hSplit

theorem ofChars?_eq_some {cs : List Char} {sign : Symbol} (h : Symbol.ofChars? cs = some sign) :
    sign.spelling.toList = cs := by
  have := List.find?_some h
  simpa using this

theorem nextSymbol?_eq_some {c : Char} {cs rest : List Char} {sign : Symbol}
    (h : nextSymbol? c cs = some (sign, rest)) : sign.spelling.toList ++ rest = c :: cs := by
  unfold nextSymbol? at h
  split at h
  · obtain ⟨s, hs, hPair⟩ := Option.map_eq_some_iff.mp h
    cases hPair
    simp [ofChars?_eq_some hs]
  · split at h
    case h_1 _ _ d ds _ hs =>
      cases h
      simp [ofChars?_eq_some hs]
    case h_2 =>
      obtain ⟨s, hs, hPair⟩ := Option.map_eq_some_iff.mp h
      cases hPair
      simp [ofChars?_eq_some hs]

theorem nextComment?_eq_some {c : Char} {cs rest : List Char} {found : Lexeme}
    (h : nextComment? c cs = some (found, rest)) : found.text ++ rest = c :: cs := by
  unfold nextComment? at h
  split at h
  · cases h
    simp [text]
  · split at h
    case h_1 hSplit =>
      cases h
      simp [text, splitComment?_eq_some hSplit]
    case h_2 =>
      cases h
      simp [text]
  · cases h

/-- A lexeme and the rest after it make up the text they were cut from. -/
theorem text_next (c : Char) (cs : List Char) : (next c cs).1.text ++ (next c cs).2 = c :: cs := by
  unfold next
  split
  · rfl
  · split
    · simp [text]
    · split
      · simp [text]
      · split
        case h_1 found hComment => exact nextComment?_eq_some hComment
        case h_2 =>
          split
          case h_1 sign rest hSymbol => exact nextSymbol?_eq_some hSymbol
          case h_2 => rfl

theorem text_ne_nil (l : Lexeme) : l.text ≠ [] := by
  cases l with
  | symbol sign => cases sign <;> decide
  | _ => simp [text]

theorem length_next (c : Char) (cs : List Char) : (next c cs).2.length ≤ cs.length := by
  have hLength := congrArg List.length (text_next c cs)
  have hPos := List.length_pos_iff.mpr (text_ne_nil (next c cs).1)
  simp only [List.length_append, List.length_cons] at hLength
  omega

end Lexeme

/-- The lexemes of a text, from left to right. -/
def lexemes : List Char → List Lexeme
  | [] => []
  | c :: cs => (Lexeme.next c cs).1 :: lexemes (Lexeme.next c cs).2
termination_by cs => cs.length
decreasing_by exact Nat.lt_succ_of_le (Lexeme.length_next c cs)

/-- All lexemes together spell the source. -/
theorem text_lexemes (cs : List Char) : (lexemes cs).flatMap Lexeme.text = cs := by
  fun_induction lexemes cs with
  | case1 => rfl
  | case2 c cs ih => rw [List.flatMap_cons, ih, Lexeme.text_next]

end FeatherScript
