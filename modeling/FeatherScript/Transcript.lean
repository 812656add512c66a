import FeatherScript.Value

/-!
# Transcripts

What a program prints is collected in one text, a line for each printed value. Reading the text back
by lines gives the printed forms of the values, because none of them contains the end of a line.

* `Transcript.ofValues` is the text of a list of printed values.
* `Transcript.lines` are the lines of a text, each without the line feed, or the carriage return and
  line feed, that ends it.
-/

namespace FeatherScript.Transcript

/-- The text of the values printed, one to a line. -/
def ofValues (values : List Value) : String := String.join (values.map fun v => v.text ++ "\n")

/-- The pieces of a text between the ends of its lines; the last one may lack an end. -/
def split : List Char → List (List Char)
  | [] => []
  | '\n' :: cs => [] :: split cs
  | '\r' :: '\n' :: cs => [] :: split cs
  | c :: cs =>
    match split cs with
    | [] => [[c]]
    | line :: more => (c :: line) :: more

/-- The lines of a text. -/
def lines (text : String) : List String := (split text.toList).map String.ofList

end FeatherScript.Transcript
