/-!
# Text with colours

Output for a terminal is a list of pieces, each drawn in an ink. Whether the inks show is decided
when the pieces are written: without colours only their texts remain, with colours each inked piece
stands between the escape sequence of its ink and the one that ends it.

* `Styled.write` writes one piece, `Styled.writeAll` a list of them.
-/

namespace FeatherScript

/-- What a piece of output is drawn in. -/
inductive Ink
  | error
  | warning
  | note
  | strong
  | secondary
deriving DecidableEq

def Ink.escape : Ink → String
  | error => "\x1b[1;31m"
  | warning => "\x1b[1;33m"
  | note => "\x1b[1;36m"
  | strong => "\x1b[1m"
  | secondary => "\x1b[1;34m"

/-- The escape sequence that ends every ink. -/
def Ink.reset : String := "\x1b[0m"

/-- A piece of output, without ink where it is plain text. -/
structure Styled where
  ink : Option Ink
  text : String
deriving DecidableEq

namespace Styled

def plain (text : String) : Styled := ⟨none, text⟩

def inked (ink : Ink) (text : String) : Styled := ⟨some ink, text⟩

def write (colours : Bool) (s : Styled) : String :=
  match s.ink, colours with
  | some ink, true => ink.escape ++ s.text ++ Ink.reset
  | _, _ => s.text

def writeAll (colours : Bool) (pieces : List Styled) : String :=
  String.join (pieces.map (write colours))

@[simp] theorem writeAll_nil (colours : Bool) : writeAll colours [] = "" := rfl

@[simp] theorem writeAll_cons (colours : Bool) (s : Styled) (pieces : List Styled) :
    writeAll colours (s :: pieces) = s.write colours ++ writeAll colours pieces := by
  simp [writeAll]

@[simp] theorem writeAll_append (colours : Bool) (xs ys : List Styled) :
    writeAll colours (xs ++ ys) = writeAll colours xs ++ writeAll colours ys := by
  simp [writeAll]

@[simp] theorem write_plain (colours : Bool) (text : String) :
    (plain text).write colours = text := rfl

@[simp] theorem write_inked (ink : Ink) (text : String) :
    (inked ink text).write false = text := rfl

end Styled

/-- When to draw in colours. -/
inductive ColourMode
  | auto
  | always
  | never
deriving DecidableEq

/-- Whether colours are used; the automatic mode uses them on a terminal only. -/
def ColourMode.colours (mode : ColourMode) (onTerminal : Bool) : Bool :=
  match mode with
  | auto => onTerminal
  | always => true
  | never => false

end FeatherScript
