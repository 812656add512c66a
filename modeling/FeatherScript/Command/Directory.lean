/-!
# Files by path

A path leads to a file with its bytes, to a directory or to nothing. The commands need of a file its
text, or else the reason why there is none.

* `Contents.ofBytes` is the text of a file, which has to be encoded in UTF-8.
* `Directory.read` follows a path through a directory held in memory; outside of that directory only
  the directories around it can be reached.
-/

namespace FeatherScript

/-- Why a path has no text. -/
inductive ReadError
  | invalidText
  | notFound
  | notPermitted
  | notDirectory
  | isDirectory
  | nameTooLong
  | other (message : String)
deriving DecidableEq

def ReadError.message : ReadError → String
  | invalidText => "stream did not contain valid UTF-8"
  | notFound => "No such file or directory (os error 2)"
  | notPermitted => "Permission denied (os error 13)"
  | notDirectory => "Not a directory (os error 20)"
  | isDirectory => "Is a directory (os error 21)"
  | nameTooLong => "File name too long (os error 36)"
  | other message => message

abbrev Contents : Type := Except ReadError String

namespace Contents

/-- The text encoded by the bytes of a file. -/
def ofBytes (bytes : ByteArray) : Contents :=
  match String.fromUTF8? bytes with
  | some text => .ok text
  | none => .error .invalidText

/-- Whether a path leads to a file, readable as text or not. -/
def isFile : Contents → Bool
  | .ok _ | .error .invalidText => true
  | _ => false

end Contents

/-- Files with their paths, as lists of names from a working directory on. -/
structure Directory where
  files : List (List String × ByteArray)

/-- Where the names of a path have led so far: to a place in the working directory, by the names
from there on, or out of it. Outside there are only directories, each around the one before, and the
root is around itself. -/
inductive Place
  | inside (names : List String)
  | outside
deriving DecidableEq

namespace Place

/-- The directory around a place. -/
def outer : Place → Place
  | inside [] | outside => outside
  | inside names => inside names.dropLast

/-- The place that a name has in a directory; outside there is none. -/
def inner? (here : Place) (name : String) : Option (List String) :=
  match here with
  | inside names => some (names ++ [name])
  | outside => none

end Place

namespace Directory

/-- The bytes of the longest name that a file may have. -/
def longestName : Nat := 255

/-- The bytes of the longest path that can be followed. -/
def longestPath : Nat := 4095

/-- The names that a path is made of; a path that ends in a slash ends in an empty name. -/
def names (path : String) : List String := path.splitToList (· = '/')

/-- Whether names lead to a directory: to the working directory or to one around a file. -/
def isDirectory (d : Directory) (place : List String) : Bool :=
  place.isEmpty || d.files.any fun file => place.isPrefixOf file.1 && place ≠ file.1

/-- Follows names from a place on, which is a directory. -/
def follow (d : Directory) (here : Place) : List String → Contents
  | [] => .error .isDirectory
  | name :: more =>
    if name = "" ∨ name = "." then d.follow here more
    else if name = ".." then d.follow here.outer more
    else if longestName < name.utf8ByteSize then .error .nameTooLong
    else
      match here.inner? name with
      | none => .error .notFound
      | some next =>
        match d.files.lookup next with
        | some bytes => if more = [] then .ofBytes bytes else .error .notDirectory
        | none => if d.isDirectory next then d.follow (.inside next) more else .error .notFound

/-- The contents that a path leads to, from the root if it begins with a slash and from the working
directory otherwise. -/
def read (d : Directory) (path : String) : Contents :=
  if path = "" then .error .notFound
  else if longestPath < path.utf8ByteSize then .error .nameTooLong
  else d.follow (if path.startsWith "/" then .outside else .inside []) (names path)

end Directory

end FeatherScript
